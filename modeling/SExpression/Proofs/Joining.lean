import SExpression.Proofs.Delivery
import SExpression.Proofs.Depth

/-! # Texts one after the other

Lexemes that stand in a text go on standing there when more text follows, if that begins with a
boundary and no quote is left open (`Standing.extend`).  So two texts with a line feed between them
are taken apart as each of them alone (`Dissection.isOf_join`), and a parse that goes through all
lexemes of a text delivers their tokens (`delivered_of_isOf`). -/
set_option autoImplicit false
namespace SExpression

section Gaps

/-- Of what follows, a gap sees the first byte only. -/
theorem IsGap.congr_head {rest rest' gap : Bytes} (h : IsGap rest gap)
    (hhead : rest.head? = rest'.head?) : IsGap rest' gap := by
  induction h with
  | nil => exact .nil
  | space b gap hb _ ih => exact .space b gap hb ih
  | comment body gap hbody hline _ ih =>
      refine .comment body gap hbody ?_ ih
      rw [AtLineEnd, List.head?_append, ← hhead, ← List.head?_append]
      exact hline

/-- A gap may go on where a line ends, since that ends its comment if it has one. -/
theorem IsGap.append {rest gap more : Bytes} (hgap : IsGap [] gap) (hmore : IsGap rest more)
    (hline : AtLineEnd (more ++ rest)) : IsGap rest (gap ++ more) := by
  induction hgap with
  | nil => exact hmore
  | space b gap hb _ ih => exact .space b (gap ++ more) hb ih
  | comment body gap hbody hend _ ih =>
      rw [List.cons_append, List.append_assoc]
      refine .comment body (gap ++ more) hbody ?_ ih
      cases gap with
      | nil => exact hline
      | cons b gap => exact hend

end Gaps

namespace Dissection
variable {escapes : Bool}

section Prefixes

/-- The lexemes stand where they do in a text that goes on with `rest`. -/
def Standing (escapes : Bool) (rest : Bytes) : List (Bytes × Lexeme) → Prop
  | [] => True
  | (gap, l) :: parts =>
    IsGap (l.written ++ textOf rest parts) gap ∧ l.StandsBefore escapes (textOf rest parts) ∧
      Standing escapes rest parts

theorem textOf_append (tail : Bytes) (parts more : List (Bytes × Lexeme)) :
    textOf tail (parts ++ more) = textOf (textOf tail more) parts := by
  induction parts with
  | nil => rfl
  | cons part parts ih => rw [List.cons_append, textOf, textOf, ih]

theorem textOf_append_tail (tail s : Bytes) (parts : List (Bytes × Lexeme)) :
    textOf (tail ++ s) parts = textOf tail parts ++ s := by
  induction parts with
  | nil => rfl
  | cons part parts ih => simp only [textOf, ih, List.append_assoc]

theorem grammatical_append_iff (tail : Bytes) (parts more : List (Bytes × Lexeme)) :
    Grammatical escapes tail (parts ++ more) ↔
      Standing escapes (textOf tail more) parts ∧ Grammatical escapes tail more := by
  induction parts with
  | nil => simp [Standing]
  | cons part parts ih =>
      obtain ⟨gap, l⟩ := part
      simp only [List.cons_append, Grammatical, Standing, textOf_append, ih, and_assoc]

theorem standing_of_grammatical (tail : Bytes) (parts : List (Bytes × Lexeme))
    (h : Grammatical escapes tail parts) : Standing escapes tail parts ∧ IsGap [] tail := by
  rw [← List.append_nil parts, grammatical_append_iff] at h
  exact h

theorem Standing.extend {tail : Bytes} {parts : List (Bytes × Lexeme)} (s : Bytes)
    (h : Standing escapes tail parts) (hs : ∀ b ∈ s.head?, isBoundary b = true)
    (hclosed : ∀ gap t, (gap, Lexeme.quoted t false) ∉ parts) :
    Standing escapes (tail ++ s) parts := by
  induction parts with
  | nil => trivial
  | cons part parts ih =>
      obtain ⟨gap, l⟩ := part
      obtain ⟨hgap, hl, hparts⟩ := h
      simp only [Standing, textOf_append_tail]
      refine ⟨?_, ?_, ih hparts fun gap t hmem => hclosed gap t (List.mem_cons_of_mem _ hmem)⟩
      · apply hgap.congr_head
        obtain ⟨b, more, hwritten⟩ := List.exists_cons_of_ne_nil (l.written_ne_nil _ hl)
        rw [hwritten]
        rfl
      · cases l with
        | opening => trivial
        | closing => trivial
        | quoted t closed =>
            cases closed with
            | true => exact hl
            | false => exact absurd (List.mem_cons_self ..) (hclosed gap t)
        | bare t =>
            obtain ⟨hne, hrun, hend⟩ := hl
            refine ⟨hne, hrun, ?_⟩
            cases hrest : textOf tail parts with
            | nil => exact hs
            | cons b more =>
                rw [hrest] at hend
                exact hend

end Prefixes

section Joins

/-- The dissection of a text with a gap put in front. -/
def behind (gap : Bytes) (d : Dissection) : Dissection :=
  match d.parts with
  | [] => ⟨[], gap ++ d.tail⟩
  | (first, l) :: parts => ⟨(gap ++ first, l) :: parts, d.tail⟩

/-- The dissection of two texts with a line feed between them. -/
def join (d e : Dissection) : Dissection :=
  let second := e.behind (d.tail ++ [byte '\n'])
  ⟨d.parts ++ second.parts, second.tail⟩

theorem lexemes_behind (gap : Bytes) (d : Dissection) : (d.behind gap).lexemes = d.lexemes := by
  unfold behind
  split
  · rename_i hparts
    simp [lexemes, hparts]
  · rename_i first l parts hparts
    simp [lexemes, hparts]

theorem lexemes_join (d e : Dissection) : (d.join e).lexemes = d.lexemes ++ e.lexemes := by
  have hsecond := lexemes_behind (d.tail ++ [byte '\n']) e
  simp only [lexemes] at hsecond ⊢
  rw [join, List.map_append, hsecond]

theorem isOf_behind (gap text : Bytes) (d : Dissection) (hd : d.IsOf escapes text)
    (hgap : ∀ rest more, IsGap rest more → IsGap rest (gap ++ more)) :
    (d.behind gap).IsOf escapes (gap ++ text) := by
  obtain ⟨htext, hgram⟩ := hd
  unfold behind
  split
  · rename_i hparts
    rw [hparts] at htext hgram
    exact ⟨congrArg (gap ++ ·) htext, hgap [] d.tail hgram⟩
  · rename_i first l parts hparts
    rw [hparts] at htext hgram
    refine ⟨?_, hgap _ first hgram.1, hgram.2⟩
    rw [← htext, textOf, textOf, List.append_assoc]

theorem isOf_join (a b : Bytes) (d e : Dissection) (hd : d.IsOf escapes a) (he : e.IsOf escapes b)
    (hclosed : ∀ gap t, (gap, Lexeme.quoted t false) ∉ d.parts) :
    (d.join e).IsOf escapes (a ++ byte '\n' :: b) := by
  obtain ⟨hstanding, htail⟩ := standing_of_grammatical d.tail d.parts hd.2
  have hsecond : (e.behind (d.tail ++ [byte '\n'])).IsOf escapes (d.tail ++ [byte '\n'] ++ b) := by
    apply isOf_behind _ b e he
    intro rest more hmore
    rw [List.append_assoc]
    apply htail.append (.space _ more rfl hmore)
    intro x hx
    obtain rfl : byte '\n' = x := by simpa using hx
    rfl
  refine ⟨?_, ?_⟩
  · simp only [join, textOf_append]
    rw [hsecond.1, List.append_assoc, textOf_append_tail, hd.1]
    rfl
  · simp only [join]
    rw [grammatical_append_iff, hsecond.1, List.append_assoc]
    refine ⟨hstanding.extend _ ?_ hclosed, hsecond.2⟩
    intro x hx
    obtain rfl : byte '\n' = x := by simpa using hx
    rfl

end Joins

end Dissection

section Delivery
variable (settings : Settings) (src : Bytes) (d : Dissection)
  (hd : d.IsOf settings.escapes src)
include hd

theorem Dissection.tokens_lexemesIn :
    (d.lexemesIn (.ofBuffer src)).filterMap (fun l => l.value.token? settings.numeric) =
      d.lexemes.map (Lexeme.token settings.numeric) := by
  have hwhole : (!(Cursor.ofBuffer src).buffer.isBoundaryAt (Cursor.ofBuffer src).stop) = false := by
    rw [Bool.not_eq_false']
    exact Bytes.isBoundaryAt_length _
  rw [lexemesIn, hwhole, located_untorn settings.numeric _ _ _ hd.2, lexemes, List.map_map]
  rfl

/-- What a parse delivers are the tokens of the first lexemes. -/
theorem delivered_prefix_of_isOf :
    delivered settings (.ofBuffer src) <+: d.lexemes.map (Lexeme.token settings.numeric) := by
  have hbytes : d.IsOf settings.escapes (Cursor.ofBuffer src).bytes := by
    rwa [Cursor.bytes_ofBuffer]
  rw [← d.tokens_lexemesIn settings src hd, ← d.lexemes_eq _ hbytes]
  exact (parsedLexemes_prefix_lexemes settings (.ofBuffer src)).filterMap _

/-- A text that is not refused at its beginning begins with an opening bracket or has no lexeme. -/
theorem Dissection.head_opening (start : Int)
    (h : ∀ found place, (parse settings (.ofBuffer src) start).outcome ≠
      .malformed (.missingOpening found) place) :
    ∀ part ∈ d.parts.head?, part.2 = .opening := by
  intro part hpart
  have hbytes : d.IsOf settings.escapes (Cursor.ofBuffer src).bytes := by
    rwa [Cursor.bytes_ofBuffer]
  cases hparts : d.parts with
  | nil => simp [hparts] at hpart
  | cons first parts =>
      obtain ⟨gap, l⟩ := first
      obtain rfl : (gap, l) = part := by simpa [hparts] using hpart
      by_contra hl
      have hcourse := parsedLexemes_other settings (.ofBuffer src) d hbytes gap l parts hparts hl
      apply h
      simp only [parse, outcomeAt, hcourse, Outcome.map]
      exact rfl

/-- A parse whose limit is not reached goes through all lexemes of the text. -/
theorem parsedLexemes_of_isOf (hfirst : ∀ part ∈ d.parts.head?, part.2 = .opening)
    (hdepth : ∀ ts, ts <+: d.lexemes.map (Lexeme.token settings.numeric) →
      ∀ most ∈ settings.maxDepth, ts.foldl Report.depthAfter 0 ≤ most) :
    parsedLexemes settings (.ofBuffer src) =
      (d.lexemesIn (.ofBuffer src),
        ((d.lexemesIn (.ofBuffer src)).foldl Nesting.after .start).outcome) := by
  have hbytes : d.IsOf settings.escapes (Cursor.ofBuffer src).bytes := by
    rwa [Cursor.bytes_ofBuffer]
  cases hparts : d.parts with
  | nil =>
      rw [parsedLexemes_blank settings _ d hbytes hparts, Dissection.lexemesIn, hparts]
      rfl
  | cons part parts =>
      obtain ⟨gap, l⟩ := part
      obtain rfl : l = .opening := hfirst (gap, l) (by simp [hparts])
      rw [parsedLexemes_opening settings _ d hbytes gap parts hparts]
      apply matchBrackets_within settings.numeric
      rw [d.tokens_lexemesIn settings src hd]
      exact hdepth

theorem delivered_of_isOf (hfirst : ∀ part ∈ d.parts.head?, part.2 = .opening)
    (hdepth : ∀ ts, ts <+: d.lexemes.map (Lexeme.token settings.numeric) →
      ∀ most ∈ settings.maxDepth, ts.foldl Report.depthAfter 0 ≤ most) :
    delivered settings (.ofBuffer src) = d.lexemes.map (Lexeme.token settings.numeric) := by
  rw [delivered, parsedLexemes_of_isOf settings src d hd hfirst hdepth,
    d.tokens_lexemesIn settings src hd]

end Delivery

end SExpression
