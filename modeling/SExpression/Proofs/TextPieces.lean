import SExpression.Layout
import SExpression.Proofs.Joining
import SExpression.Proofs.NumberText

/-! # Pieces of a text

Lexemes begin and end where no byte continues a character, so the texts of delivered tokens are texts
of their own (`isUtf8_delivered`), and so is what is written of them (`Layout.isUtf8_writeLine`). -/
set_option autoImplicit false
namespace SExpression

section Lexemes
variable {escapes : Bool}

theorem IsGap.isUtf8_behind {gap rest : Bytes} (hgap : IsGap rest gap)
    (h : Bytes.IsUtf8 (gap ++ rest)) : rest.IsUtf8 := by
  induction hgap with
  | nil => exact h
  | space b gap hb _ ih => exact ih (h.tail_of_ascii (ascii_of_isWhitespace hb))
  | comment body gap _ hline _ ih =>
      have hbody : Bytes.IsUtf8 (body ++ (gap ++ rest)) := by
        rw [← List.append_assoc]
        exact h.tail_of_ascii (by decide)
      refine ih (hbody.split ?_).2
      intro b hb
      exact continues_of_ascii (ascii_of_isWhitespace (isLineEnd_isWhitespace (hline b hb)))

theorem Decimal.isUtf8_text (d : Decimal) : d.text.IsUtf8 := by
  obtain ⟨whole, fraction, htext, _, hwhole, hfraction, _⟩ := d.exists_text
  have hpoint : Bytes.IsUtf8 [byte '.'] := Bytes.isUtf8_of_ascii _ rfl
  rw [htext]
  exact hwhole.isUtf8.append (hpoint.append hfraction.isUtf8)

theorem isUtf8_signText (negative : Bool) : (signText negative).IsUtf8 := by
  apply Bytes.isUtf8_of_ascii
  cases negative <;> rfl

theorem isUtf8_text (x : Binary64) : x.text.IsUtf8 := by
  rcases kinds x with h | h | h
  · rw [text_nan x h]
    exact Bytes.isUtf8_ofString _
  · rw [text_infinite x h]
    exact (isUtf8_signText _).append (Bytes.isUtf8_ofString _)
  · rw [text_finite x h]
    exact (isUtf8_signText _).append (Decimal.isUtf8_text _)

theorem isUtf8_written_ofBare (policy : NumericPolicy) (text : Bytes) (h : text.IsUtf8) :
    (Token.ofBare policy text).written.IsUtf8 := by
  rcases Token.ofBare_cases policy text with ⟨r, _, hr⟩ | ⟨r, _, hr⟩ | hr
  · rw [hr]
    exact isUtf8_text _
  · rw [hr]
    exact Bytes.isUtf8_ofString _
  · rwa [hr]

theorem isUtf8_quotes (text : Bytes) (h : text.IsUtf8) : (Token.string text).written.IsUtf8 := by
  have hquote : Bytes.IsUtf8 [byte '"'] := Bytes.isUtf8_of_ascii _ rfl
  exact (hquote.append h).append hquote

/-- What a lexeme says is a text of its own, and so is what follows the lexeme. -/
theorem Lexeme.isUtf8_token (policy : NumericPolicy) (l : Lexeme) (rest : Bytes)
    (hl : l.StandsBefore escapes rest) (h : Bytes.IsUtf8 (l.written ++ rest)) :
    (l.token policy).written.IsUtf8 ∧ rest.IsUtf8 := by
  cases l with
  | opening => exact ⟨Bytes.isUtf8_of_ascii [byte '('] rfl, h.tail_of_ascii (by decide)⟩
  | closing => exact ⟨Bytes.isUtf8_of_ascii [byte ')'] rfl, h.tail_of_ascii (by decide)⟩
  | quoted text closed =>
      cases closed with
      | true =>
          have hinner : Bytes.IsUtf8 ((text ++ [byte '"']) ++ rest) := h.tail_of_ascii (by decide)
          rw [List.append_assoc] at hinner
          obtain ⟨htext, hrest⟩ := hinner.split fun b hb => by
            obtain rfl : byte '"' = b := by simpa using hb
            rfl
          exact ⟨isUtf8_quotes text htext, hrest.tail_of_ascii (by decide)⟩
      | false =>
          obtain ⟨_, rfl⟩ := hl
          have htext : Bytes.IsUtf8 (text ++ []) := h.tail_of_ascii (by decide)
          rw [List.append_nil] at htext
          exact ⟨isUtf8_quotes text htext, ⟨[], rfl⟩⟩
  | bare text =>
      obtain ⟨_, _, hend⟩ := hl
      obtain ⟨htext, hrest⟩ := h.split fun b hb =>
        continues_of_ascii (ascii_of_isBoundary (hend b hb))
      exact ⟨isUtf8_written_ofBare policy text htext, hrest⟩

theorem Dissection.isUtf8_tokens (policy : NumericPolicy) (tail : Bytes)
    (parts : List (Bytes × Lexeme)) (h : Grammatical escapes tail parts)
    (htext : (textOf tail parts).IsUtf8) :
    ∀ part ∈ parts, (part.2.token policy).written.IsUtf8 := by
  induction parts with
  | nil => simp
  | cons part parts ih =>
      obtain ⟨gap, l⟩ := part
      obtain ⟨hgap, hl, hparts⟩ := h
      obtain ⟨htoken, hrest⟩ := l.isUtf8_token policy _ hl (hgap.isUtf8_behind htext)
      intro p hp
      rcases List.mem_cons.mp hp with rfl | hp
      · exact htoken
      · exact ih hparts hrest p hp

theorem isUtf8_delivered (settings : Settings) (src : Bytes) (h : src.IsUtf8) :
    ∀ t ∈ delivered settings (.ofBuffer src), t.written.IsUtf8 := by
  obtain ⟨d, hd⟩ := Dissection.exists_isOf settings.escapes src
  intro t ht
  have hmem := (delivered_prefix_of_isOf settings src d hd).subset ht
  rw [Dissection.lexemes, List.map_map] at hmem
  obtain ⟨part, hpart, rfl⟩ := List.mem_map.mp hmem
  exact Dissection.isUtf8_tokens settings.numeric d.tail d.parts hd.2 (by rwa [hd.1]) part hpart

end Lexemes

namespace Layout

section Writing

theorem isUtf8_separator (depth : Int) (previous t : Token) :
    (separator depth previous t).IsUtf8 := by
  apply Bytes.isUtf8_of_ascii
  unfold separator
  split
  · rfl
  · split <;> rfl

theorem isUtf8_writeAfter (depth : Int) (previous : Token) (ts : List Token)
    (h : ∀ t ∈ ts, t.written.IsUtf8) : (writeAfter depth previous ts).IsUtf8 := by
  induction ts generalizing depth previous with
  | nil => exact ⟨[], rfl⟩
  | cons t ts ih =>
      have hrest := ih (depth + t.step) t fun u hu => h u (by simp [hu])
      exact ((isUtf8_separator depth previous t).append (h t (by simp))).append hrest

theorem isUtf8_write (ts : List Token) (h : ∀ t ∈ ts, t.written.IsUtf8) : (write ts).IsUtf8 := by
  cases ts with
  | nil => exact ⟨[], rfl⟩
  | cons t ts =>
      exact (h t (by simp)).append (isUtf8_writeAfter t.step t ts fun u hu => h u (by simp [hu]))

theorem isUtf8_writeLine (ts : List Token) (h : ∀ t ∈ ts, t.written.IsUtf8) :
    (writeLine ts).IsUtf8 := by
  unfold writeLine
  simp only
  split
  · exact ⟨[], rfl⟩
  · exact (isUtf8_write ts h).append (Bytes.isUtf8_of_ascii _ rfl)

end Writing

end Layout

end SExpression
