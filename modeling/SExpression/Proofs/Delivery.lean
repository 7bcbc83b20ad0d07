import SExpression.Proofs.Dissection
import SExpression.Proofs.OnePass

/-! # What a parse delivers

The lexemes of a range are those of the one dissection of its bytes (`Dissection.lexemes_eq`), and
how the dissection begins decides which of the three courses a parse takes
(`parsedLexemes_blank`, `parsedLexemes_other`, `parsedLexemes_opening`).  Without a nesting limit a
text that begins with an opening bracket delivers one token per lexeme (`delivers_by_grammar`). -/
set_option autoImplicit false
namespace SExpression

namespace Lexeme

/-- The token that a lexeme with a readable text stands for. -/
def token (policy : NumericPolicy) : Lexeme → Token
  | opening => .opening
  | closing => .closing
  | quoted text _ => .string text
  | bare text => .ofBare policy text

theorem token?_eq_token {escapes : Bool} (policy : NumericPolicy) (l : Lexeme) (rest : Bytes)
    (h : l.StandsBefore escapes rest) : l.token? policy = some (l.token policy) := by
  cases l with
  | bare text =>
      cases text with
      | nil => exact absurd rfl h.1
      | cons b text => rfl
  | _ => rfl

theorem seen_eq_opening_iff (tornEnd : Bool) (rest : Bytes) (l : Lexeme) :
    l.seen tornEnd rest = .opening ↔ l = .opening := by
  unfold seen
  split
  · cases l with
    | quoted text closed => cases closed <;> simp [torn]
    | _ => simp [torn]
  · rfl

theorem seen_false (rest : Bytes) (l : Lexeme) : l.seen false rest = l := rfl

end Lexeme

namespace Dissection
variable {escapes : Bool}

/-- The lexemes of a range at their offsets in the buffer. -/
def lexemesIn (c : Cursor) (d : Dissection) : List (Located Lexeme) :=
  located (!c.buffer.isBoundaryAt c.stop) d.tail c.start d.parts

theorem lexemes_eq (c : Cursor) (d : Dissection) (hd : d.IsOf escapes c.bytes) :
    c.lexemes escapes = d.lexemesIn c := by
  rw [Cursor.lexemes, lexemesIn, ← hd.1, all_eq_located _ _ _ _ hd.2]

theorem located_untorn (policy : NumericPolicy) (tail : Bytes) (offset : Nat)
    (parts : List (Bytes × Lexeme)) (h : Grammatical escapes tail parts) :
    (located false tail offset parts).filterMap (fun l => l.value.token? policy) =
      parts.map fun part => part.2.token policy := by
  induction parts generalizing offset with
  | nil => rfl
  | cons part parts ih =>
      obtain ⟨gap, l⟩ := part
      obtain ⟨_, hl, hparts⟩ := h
      simp only [located, Lexeme.seen_false, List.filterMap_cons, l.token?_eq_token policy _ hl,
        ih _ hparts, List.map_cons]

theorem grammatical_suffix (tail : Bytes) (pre parts : List (Bytes × Lexeme))
    (h : Grammatical escapes tail (pre ++ parts)) : Grammatical escapes tail parts := by
  induction pre with
  | nil => exact h
  | cons part pre ih => exact ih h.2.2

theorem gap_between_bare (d : Dissection) (text : Bytes) (hd : d.IsOf escapes text)
    (pre post : List (Bytes × Lexeme)) (gap₁ gap₂ t u : Bytes)
    (h : d.parts = pre ++ (gap₁, .bare t) :: (gap₂, .bare u) :: post) : gap₂ ≠ [] := by
  rintro rfl
  have hgram := hd.2
  rw [h] at hgram
  obtain ⟨_, ⟨_, _, hend⟩, _, ⟨hne, hrun, _⟩, _⟩ := grammatical_suffix d.tail pre _ hgram
  cases u with
  | nil => exact hne rfl
  | cons b u =>
      have hboundary := hend b rfl
      rw [hrun b (by simp)] at hboundary
      cases hboundary

theorem textOf_eq_nil (tail : Bytes) (parts : List (Bytes × Lexeme))
    (h : Grammatical escapes tail parts) (hnil : textOf tail parts = []) : parts = [] ∧ tail = [] := by
  cases parts with
  | nil => exact ⟨rfl, hnil⟩
  | cons part parts =>
      obtain ⟨gap, l⟩ := part
      obtain ⟨_, hl, _⟩ := h
      rw [textOf, List.append_eq_nil_iff, List.append_eq_nil_iff] at hnil
      exact absurd hnil.2.1 (l.written_ne_nil _ hl)

/-- A quote that nothing closes is the last lexeme, and no gap follows it. -/
theorem openEnded_last (d : Dissection) (text : Bytes) (hd : d.IsOf escapes text)
    (pre post : List (Bytes × Lexeme)) (gap t : Bytes)
    (h : d.parts = pre ++ (gap, .quoted t false) :: post) : post = [] ∧ d.tail = [] := by
  have hgram := hd.2
  rw [h] at hgram
  obtain ⟨_, ⟨_, hend⟩, hpost⟩ := grammatical_suffix d.tail pre _ hgram
  exact textOf_eq_nil d.tail post hpost hend

end Dissection

section Lexemes
variable (settings : Settings) (c : Cursor)

/-- A parse reads nothing, or its brackets are matched. -/
theorem parsedLexemes_cases :
    (parsedLexemes settings c).1 = [] ∨
      parsedLexemes settings c =
        matchBrackets settings.maxDepth .start (c.lexemes settings.escapes) := by
  unfold parsedLexemes
  split
  · exact Or.inl rfl
  · rename_i l ls hlexemes
    split
    · exact Or.inr (by rw [hlexemes])
    · exact Or.inl rfl

theorem parsedLexemes_prefix_lexemes : (parsedLexemes settings c).1 <+: c.lexemes settings.escapes := by
  rcases parsedLexemes_cases settings c with hnil | hmatched
  · rw [hnil]
    exact List.nil_prefix
  · rw [hmatched]
    rcases matchBrackets_cases settings.maxDepth .start (c.lexemes settings.escapes) with
      ⟨before, l, after, hsplit, _, _, hcut⟩ | hall
    · exact ⟨l :: after, by rw [hcut, hsplit]⟩
    · exact ⟨[], by rw [hall, List.append_nil]⟩

/-- What is delivered begins with an opening bracket. -/
theorem head_delivered : ∀ t ∈ (delivered settings c).head?, t = .opening := by
  intro t ht
  rw [delivered, parsedLexemes] at ht
  split at ht
  · cases ht
  · rename_i l ls _
    split at ht
    · rename_i hopening
      rw [matchBrackets] at ht
      split at ht
      · cases ht
      · simp only [List.filterMap_cons, hopening] at ht
        exact (Option.some.inj ht).symm
    · cases ht

end Lexemes

section Courses
variable (settings : Settings) (c : Cursor) (d : Dissection)
  (hd : d.IsOf settings.escapes c.bytes)
include hd

theorem parsedLexemes_blank (h : d.parts = []) : parsedLexemes settings c = ([], .complete) := by
  rw [parsedLexemes, d.lexemes_eq c hd, Dissection.lexemesIn, h]
  rfl

theorem parsedLexemes_other (gap : Bytes) (l : Lexeme) (parts : List (Bytes × Lexeme))
    (h : d.parts = (gap, l) :: parts) (hl : l ≠ .opening) :
    parsedLexemes settings c =
      ([], .malformed (.missingOpening (foundInstead c (c.start + gap.length)))
        (c.start + gap.length)) := by
  rw [parsedLexemes, d.lexemes_eq c hd, Dissection.lexemesIn, h, Dissection.located]
  exact if_neg fun hopening => hl ((Lexeme.seen_eq_opening_iff _ _ l).mp hopening)

theorem parsedLexemes_opening (gap : Bytes) (parts : List (Bytes × Lexeme))
    (h : d.parts = (gap, .opening) :: parts) :
    parsedLexemes settings c = matchBrackets settings.maxDepth .start (d.lexemesIn c) := by
  rw [parsedLexemes, d.lexemes_eq c hd, Dissection.lexemesIn, h, Dissection.located]
  exact if_pos ((Lexeme.seen_eq_opening_iff _ _ _).mpr rfl)

end Courses

/-- A text is taken apart in exactly one way, and a parse without a nesting limit, in one pass or in
two, delivers nothing if there is no lexeme or the first one is no opening bracket, and otherwise
one token per lexeme, in order. -/
theorem delivers_by_grammar (numeric : NumericPolicy) (escapes : Bool) (src : Bytes) :
    (∃! d, Dissection.IsOf escapes src d) ∧
    ∀ d, Dissection.IsOf escapes src d →
      (∀ pre post gap₁ gap₂ t u,
        d.parts = pre ++ (gap₁, .bare t) :: (gap₂, .bare u) :: post → gap₂ ≠ []) ∧
      (∀ pre post gap t, d.parts = pre ++ (gap, .quoted t false) :: post →
        post = [] ∧ d.tail = []) ∧
      ∀ {σ : Type} [Sink σ] (start : Int) (sink : σ),
        let settings : Settings := ⟨numeric, escapes, none⟩
        let r := parseInto settings (.ofBuffer src) start sink
        (src.IsUtf8 → Reader.read settings start (.ofBuffer src) sink = r) ∧
        (d.parts = [] → r.1 = sink ∧ r.2.outcome = .complete) ∧
        (∀ gap l parts, d.parts = (gap, l) :: parts → l ≠ .opening →
          r.1 = sink ∧ ∃ found,
            r.2.outcome = .malformed (.missingOpening found) (.ofOffset src gap.length)) ∧
        (∀ gap parts, d.parts = (gap, .opening) :: parts →
          r.1 = feed sink (d.lexemes.map (Lexeme.token numeric))) := by
  refine ⟨Dissection.existsUnique escapes src, ?_⟩
  intro d hd
  refine ⟨d.gap_between_bare src hd, d.openEnded_last src hd, ?_⟩
  intro σ _ start sink
  have hbytes : d.IsOf escapes (Cursor.ofBuffer src).bytes := by rwa [Cursor.bytes_ofBuffer]
  refine ⟨?_, ?_, ?_, ?_⟩
  · intro hutf8
    exact Reader.read_eq_parseInto ⟨numeric, escapes, none⟩ start (.ofBuffer src) hutf8 sink
  · intro h
    have hcourse := parsedLexemes_blank ⟨numeric, escapes, none⟩ (.ofBuffer src) d hbytes h
    simp only [parseInto, parse, delivered, outcomeAt, hcourse]
    exact ⟨rfl, rfl⟩
  · intro gap l parts h hl
    have hcourse := parsedLexemes_other ⟨numeric, escapes, none⟩ (.ofBuffer src) d hbytes gap l
      parts h hl
    simp only [parseInto, parse, delivered, outcomeAt, hcourse]
    refine ⟨rfl, foundInstead (.ofBuffer src) ((Cursor.ofBuffer src).start + gap.length), ?_⟩
    simp [Outcome.map, Cursor.ofBuffer]
  · intro gap parts h
    have hcourse := parsedLexemes_opening ⟨numeric, escapes, none⟩ (.ofBuffer src) d hbytes gap
      parts h
    have hwhole : (!(Cursor.ofBuffer src).buffer.isBoundaryAt (Cursor.ofBuffer src).stop) = false := by
      simp [Cursor.ofBuffer, Bytes.isBoundaryAt_length]
    simp only [parseInto, delivered, hcourse, matchBrackets_unlimited, Dissection.lexemesIn, hwhole,
      Dissection.located_untorn numeric _ _ _ hd.2, Dissection.lexemes, List.map_map,
      Function.comp_def]

end SExpression
