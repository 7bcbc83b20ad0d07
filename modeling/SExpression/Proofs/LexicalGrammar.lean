import Mathlib.Data.List.TakeWhile
import Mathlib.Data.Nat.Init
import SExpression.Lexeme

/-! # The lexical grammar

What a gap is, what may stand between two quotes, and where a lexeme may stand, said without a
scanner.  The scanners agree: `gapLength` measures the gap before anything that begins a lexeme
(`gapLength_append`), `unquotedLength` measures a quoted text (`unquotedLength_enclosed`), and
`Lexeme.first` reads back whatever lexeme was written where it may stand
(`Lexeme.first_written`).  Conversely every text begins with a gap, and what follows it begins
with a lexeme (`exists_gap`, `exists_lexeme`). -/
set_option autoImplicit false
namespace SExpression

section Gaps

/-- A line may end here: a line ending stands at the front, or nothing at all. -/
def AtLineEnd (bs : Bytes) : Prop := ∀ b ∈ bs.head?, isLineEnd b = true

/-- What cannot belong to a gap stands at the front, or nothing at all. -/
def AtGapEnd (bs : Bytes) : Prop := ∀ b ∈ bs.head?, isWhitespace b = false ∧ b ≠ byte ';'

/-- A run of whitespace and comments that `rest` follows. -/
inductive IsGap (rest : Bytes) : Bytes → Prop where
  | nil : IsGap rest []
  | space (b : UInt8) (gap : Bytes) :
      isWhitespace b = true → IsGap rest gap → IsGap rest (b :: gap)
  | comment (body gap : Bytes) :
      (∀ b ∈ body, isLineEnd b = false) → AtLineEnd (gap ++ rest) → IsGap rest gap →
      IsGap rest (byte ';' :: (body ++ gap))

theorem gapLength_stop (rest : Bytes) (h : AtGapEnd rest) : gapLength false rest = 0 := by
  cases rest with
  | nil => rfl
  | cons b rest =>
      obtain ⟨hspace, hsign⟩ := h b rfl
      simp [gapLength, hspace, hsign]

theorem gapLength_comment (body t : Bytes) (hbody : ∀ b ∈ body, isLineEnd b = false)
    (ht : AtLineEnd t) : gapLength true (body ++ t) = body.length + gapLength false t := by
  induction body with
  | nil =>
      cases t with
      | nil => rfl
      | cons b t =>
          have hend : isLineEnd b = true := ht b rfl
          simp [gapLength, hend, isLineEnd_isWhitespace hend]
  | cons b body ih =>
      have hb : isLineEnd b = false := hbody b (by simp)
      have hrest := ih fun x hx => hbody x (by simp [hx])
      simp only [List.cons_append, gapLength, if_true, hb, Bool.not_false, hrest, List.length_cons]
      omega

theorem gapLength_append (gap rest : Bytes) (hgap : IsGap rest gap) (hrest : AtGapEnd rest) :
    gapLength false (gap ++ rest) = gap.length := by
  induction hgap with
  | nil => exact gapLength_stop rest hrest
  | space b gap hb _ ih =>
      simp only [List.cons_append, gapLength, Bool.false_eq_true, if_false, hb, if_true, ih,
        List.length_cons]
      omega
  | comment body gap hbody hline _ ih =>
      have hsign : isWhitespace (byte ';') = false := rfl
      simp only [List.cons_append, List.append_assoc, gapLength, Bool.false_eq_true, if_false,
        hsign, if_true, gapLength_comment body (gap ++ rest) hbody hline, ih, List.length_cons,
        List.length_append]
      omega

theorem exists_gap (bs : Bytes) : ∃ gap rest, bs = gap ++ rest ∧ IsGap rest gap ∧ AtGapEnd rest := by
  induction hn : bs.length using Nat.strong_induction_on generalizing bs with
  | _ n ih =>
    cases bs with
    | nil => exact ⟨[], [], rfl, .nil, by simp [AtGapEnd]⟩
    | cons b bs =>
        by_cases hspace : isWhitespace b = true
        · obtain ⟨gap, rest, hbs, hgap, hrest⟩ := ih bs.length (by simp [← hn]) bs rfl
          exact ⟨b :: gap, rest, by simp [hbs], .space b gap hspace hgap, hrest⟩
        · by_cases hsign : b = byte ';'
          · -- the comment takes the line, and the rest of the gap follows it
            let body := bs.takeWhile fun b => !isLineEnd b
            let t := bs.dropWhile fun b => !isLineEnd b
            have hsplit : bs = body ++ t := List.takeWhile_append_dropWhile.symm
            have hshort : t.length ≤ bs.length := by
              have := congrArg List.length hsplit
              simp only [List.length_append] at this
              omega
            obtain ⟨gap, rest, ht, hgap, hrest⟩ := ih t.length (by simp [← hn]; omega) t rfl
            refine ⟨byte ';' :: (body ++ gap), rest, ?_, .comment body gap ?_ ?_ hgap, hrest⟩
            · rw [hsign, hsplit, ht]
              simp
            · intro x hx
              simpa using List.mem_takeWhile_imp hx
            · rw [← ht]
              intro x hx
              have := List.head?_dropWhile_not (fun b => !isLineEnd b) bs
              rw [Option.mem_def.mp hx] at this
              simpa using this
          · refine ⟨[], b :: bs, rfl, .nil, ?_⟩
            intro x hx
            obtain rfl : b = x := by simpa using hx
            exact ⟨by simpa using hspace, hsign⟩

end Gaps

section Quotes

/-- A text that a quote after it closes: it has no quote and, with escapes, no backslash but those
that take the byte after them, whatever it is. -/
inductive IsEnclosed (escapes : Bool) : Bytes → Prop where
  | nil : IsEnclosed escapes []
  | plain (b : UInt8) (t : Bytes) :
      b ≠ byte '"' → (escapes = true → b ≠ byte '\\') → IsEnclosed escapes t →
      IsEnclosed escapes (b :: t)
  | escaped (b : UInt8) (t : Bytes) :
      escapes = true → IsEnclosed escapes t → IsEnclosed escapes (byte '\\' :: b :: t)

/-- A text in which no quote closes, up to the end of all text.  A backslash that is the last byte
has nothing to take. -/
def IsOpenEnded (escapes : Bool) (t : Bytes) : Prop :=
  IsEnclosed escapes t ∨ escapes = true ∧ ∃ u, IsEnclosed escapes u ∧ t = u ++ [byte '\\']

variable {escapes : Bool}

theorem unquotedLength_enclosed (t rest : Bytes) (ht : IsEnclosed escapes t) :
    unquotedLength (byte '"') escapes false (t ++ rest) =
      t.length + unquotedLength (byte '"') escapes false rest := by
  induction ht with
  | nil => simp
  | plain b t hquote hback _ ih =>
      have hplain : (escapes && b == byte '\\') = false := by
        cases escapes with
        | false => rfl
        | true => simpa using hback rfl
      simp only [List.cons_append, unquotedLength, Bool.false_eq_true, if_false, hplain, hquote, ih,
        List.length_cons]
      omega
  | escaped b t hescapes _ ih =>
      simp only [List.cons_append, unquotedLength, Bool.false_eq_true, if_false, hescapes,
        Bool.true_and, BEq.rfl, if_true, List.length_cons] at ih ⊢
      omega

theorem unquotedLength_closed (t rest : Bytes) (ht : IsEnclosed escapes t) :
    unquotedLength (byte '"') escapes false (t ++ byte '"' :: rest) = t.length := by
  have hquote : (byte '"' == byte '\\') = false := rfl
  rw [unquotedLength_enclosed t _ ht]
  simp [unquotedLength, hquote]

theorem unquotedLength_openEnded (t : Bytes) (ht : IsOpenEnded escapes t) :
    unquotedLength (byte '"') escapes false t = t.length := by
  rcases ht with ht | ⟨hescapes, u, hu, rfl⟩
  · simpa [unquotedLength] using unquotedLength_enclosed t [] ht
  · rw [unquotedLength_enclosed u _ hu]
    simp [unquotedLength, hescapes]

theorem IsOpenEnded.plain {b : UInt8} {t : Bytes} (hquote : b ≠ byte '"')
    (hback : escapes = true → b ≠ byte '\\') (ht : IsOpenEnded escapes t) :
    IsOpenEnded escapes (b :: t) := by
  rcases ht with ht | ⟨hescapes, u, hu, rfl⟩
  · exact Or.inl (.plain b t hquote hback ht)
  · exact Or.inr ⟨hescapes, b :: u, .plain b u hquote hback hu, rfl⟩

theorem IsOpenEnded.escaped {t : Bytes} (b : UInt8) (hescapes : escapes = true)
    (ht : IsOpenEnded escapes t) : IsOpenEnded escapes (byte '\\' :: b :: t) := by
  rcases ht with ht | ⟨_, u, hu, rfl⟩
  · exact Or.inl (.escaped b t hescapes ht)
  · exact Or.inr ⟨hescapes, byte '\\' :: b :: u, .escaped b u hescapes hu, rfl⟩

/-- After an opening quote either some quote closes or none does. -/
theorem enclosed_or_openEnded (escapes : Bool) : ∀ bs : Bytes,
    (∃ t rest, bs = t ++ byte '"' :: rest ∧ IsEnclosed escapes t) ∨ IsOpenEnded escapes bs
  | [] => Or.inr (Or.inl .nil)
  | b :: bs => by
    by_cases hescape : escapes = true ∧ b = byte '\\'
    · obtain ⟨hescapes, rfl⟩ := hescape
      match bs with
      | [] => exact Or.inr (Or.inr ⟨hescapes, [], .nil, rfl⟩)
      | b' :: bs =>
        rcases enclosed_or_openEnded escapes bs with ⟨t, rest, rfl, ht⟩ | h
        · exact Or.inl ⟨byte '\\' :: b' :: t, rest, rfl, .escaped b' t hescapes ht⟩
        · exact Or.inr (h.escaped b' hescapes)
    · have hback : escapes = true → b ≠ byte '\\' := fun h e => hescape ⟨h, e⟩
      by_cases hquote : b = byte '"'
      · exact Or.inl ⟨[], bs, by simp [hquote], .nil⟩
      · rcases enclosed_or_openEnded escapes bs with ⟨t, rest, rfl, ht⟩ | h
        · exact Or.inl ⟨b :: t, rest, rfl, .plain b t hquote hback ht⟩
        · exact Or.inr (h.plain hquote hback)

theorem IsEnclosed.append {t u : Bytes} (ht : IsEnclosed escapes t) (hu : IsEnclosed escapes u) :
    IsEnclosed escapes (t ++ u) := by
  induction ht with
  | nil => exact hu
  | plain b t hquote hback _ ih => exact .plain b (t ++ u) hquote hback ih
  | escaped b t hescapes _ ih => exact .escaped b (t ++ u) hescapes ih

/-- Without escapes the next quote closes. -/
theorem isEnclosed_false_iff (t : Bytes) : IsEnclosed false t ↔ byte '"' ∉ t := by
  induction t with
  | nil => simp [IsEnclosed.nil]
  | cons b t ih =>
      constructor
      · intro h
        cases h with
        | plain _ _ hquote _ ht =>
            simp only [List.mem_cons, not_or]
            exact ⟨fun e => hquote e.symm, ih.mp ht⟩
        | escaped _ _ hescapes _ => cases hescapes
      · intro h
        simp only [List.mem_cons, not_or] at h
        exact .plain b t (fun e => h.1 e.symm) (by simp) (ih.mpr h.2)

end Quotes

namespace Lexeme

/-- The bytes of a lexeme as they stand in a text. -/
def written : Lexeme → Bytes
  | opening => [byte '(']
  | closing => [byte ')']
  | quoted text true => byte '"' :: (text ++ [byte '"'])
  | quoted text false => byte '"' :: text
  | bare text => text

/-- Whether a lexeme is well formed where `rest` follows it.  A quote that nothing closes leaves
nothing to follow, and a bare text is as long as it can be. -/
def StandsBefore (escapes : Bool) (rest : Bytes) : Lexeme → Prop
  | opening => True
  | closing => True
  | quoted text true => IsEnclosed escapes text
  | quoted text false => IsOpenEnded escapes text ∧ rest = []
  | bare text =>
    text ≠ [] ∧ (∀ b ∈ text, isBoundary b = false) ∧ ∀ b ∈ rest.head?, isBoundary b = true

/-- What a torn end right after it leaves of a lexeme. -/
def torn : Lexeme → Lexeme
  | quoted _ false => quoted [] false
  | bare _ => bare []
  | l => l

/-- What can be read of a lexeme where `rest` follows it, in a text with a torn end or without. -/
def seen (tornEnd : Bool) (rest : Bytes) (l : Lexeme) : Lexeme :=
  if tornEnd && rest.isEmpty then l.torn else l

variable {escapes : Bool}

theorem takeWhile_run (text rest : Bytes) (htext : ∀ b ∈ text, isBoundary b = false)
    (hrest : ∀ b ∈ rest.head?, isBoundary b = true) :
    (text ++ rest).takeWhile (fun b => !isBoundary b) = text := by
  rw [List.takeWhile_append_of_pos (by simpa using htext)]
  cases rest with
  | nil => simp
  | cons b rest => simp [hrest b rfl]

theorem first_written (tornEnd : Bool) (l : Lexeme) (rest : Bytes) (h : l.StandsBefore escapes rest) :
    ∃ b t, l.written ++ rest = b :: t ∧
      first escapes tornEnd b t = (l.seen tornEnd rest, l.written.length - 1) := by
  cases l with
  | opening => exact ⟨byte '(', rest, rfl, by cases tornEnd <;> cases rest <;> rfl⟩
  | closing => exact ⟨byte ')', rest, rfl, by cases tornEnd <;> cases rest <;> rfl⟩
  | quoted text closed =>
      have hopen : (byte '"' = byte '(') = False ∧ (byte '"' = byte ')') = False := by decide
      cases closed with
      | true =>
          refine ⟨byte '"', text ++ byte '"' :: rest, by simp [written], ?_⟩
          have hmore : ((text ++ byte '"' :: rest).drop text.length).isEmpty = false := by simp
          simp only [first, hopen.1, hopen.2, if_false, if_true, unquotedLength_closed text rest h,
            hmore, Bool.false_eq_true, written, List.length_cons, List.length_append,
            List.take_left', List.length_nil]
          cases tornEnd <;> cases rest <;> rfl
      | false =>
          obtain ⟨ht, rfl⟩ := h
          refine ⟨byte '"', text, by simp [written], ?_⟩
          simp only [first, hopen.1, hopen.2, if_false, if_true, unquotedLength_openEnded text ht,
            List.drop_length, List.isEmpty_nil, List.take_length, written, List.length_cons]
          cases tornEnd <;> rfl
  | bare text =>
      obtain ⟨hne, htext, hrest⟩ := h
      cases text with
      | nil => exact absurd rfl hne
      | cons b text =>
          refine ⟨b, text ++ rest, rfl, ?_⟩
          have hb : isBoundary b = false := htext b (by simp)
          have hrun := takeWhile_run text rest (fun x hx => htext x (by simp [hx])) hrest
          simp only [isBoundary, Bool.or_eq_false_iff, beq_eq_false_iff_ne] at hb
          simp only [first, hb.1.1.1.1, hb.1.1.1.2, hb.1.1.2, if_false, hrun, List.drop_left',
            written, List.length_cons, Nat.add_sub_cancel]
          cases tornEnd <;> cases rest <;> rfl

/-- What begins a lexeme ends a gap. -/
theorem atGapEnd_written (l : Lexeme) (rest : Bytes) (h : l.StandsBefore escapes rest) :
    AtGapEnd (l.written ++ rest) := by
  intro b hb
  cases l with
  | opening =>
      obtain rfl : byte '(' = b := by simpa [written] using hb
      decide
  | closing =>
      obtain rfl : byte ')' = b := by simpa [written] using hb
      decide
  | quoted text closed =>
      obtain rfl : byte '"' = b := by cases closed <;> simpa [written] using hb
      decide
  | bare text =>
      obtain ⟨hne, htext, _⟩ := h
      cases text with
      | nil => exact absurd rfl hne
      | cons x text =>
          obtain rfl : x = b := by simpa [written] using hb
          have hx : isBoundary x = false := htext x (by simp)
          simp only [isBoundary, Bool.or_eq_false_iff, beq_eq_false_iff_ne] at hx
          exact ⟨hx.2, hx.1.2⟩

theorem written_ne_nil (l : Lexeme) (rest : Bytes) (h : l.StandsBefore escapes rest) :
    l.written ≠ [] := by
  cases l with
  | opening => simp [written]
  | closing => simp [written]
  | quoted text closed => cases closed <;> simp [written]
  | bare text => exact h.1

end Lexeme

theorem exists_lexeme (escapes : Bool) (b : UInt8) (bs : Bytes) (h : AtGapEnd (b :: bs)) :
    ∃ (l : Lexeme) (rest : Bytes), b :: bs = l.written ++ rest ∧ l.StandsBefore escapes rest := by
  obtain ⟨hspace, hsign⟩ := h b rfl
  by_cases hopening : b = byte '('
  · exact ⟨.opening, bs, by simp [hopening, Lexeme.written], trivial⟩
  by_cases hclosing : b = byte ')'
  · exact ⟨.closing, bs, by simp [hclosing, Lexeme.written], trivial⟩
  by_cases hquote : b = byte '"'
  · rcases enclosed_or_openEnded escapes bs with ⟨t, rest, hbs, ht⟩ | ht
    · exact ⟨.quoted t true, rest, by simp [hquote, hbs, Lexeme.written], ht⟩
    · exact ⟨.quoted bs false, [], by simp [hquote, Lexeme.written], ht, rfl⟩
  · have hb : isBoundary b = false := by simp [isBoundary, hopening, hclosing, hquote, hsign, hspace]
    refine ⟨.bare (b :: bs.takeWhile fun b => !isBoundary b), bs.dropWhile fun b => !isBoundary b,
      by simp [Lexeme.written, List.takeWhile_append_dropWhile], by simp, ?_, ?_⟩
    · intro x hx
      rcases List.mem_cons.mp hx with rfl | hx
      · exact hb
      · simpa using List.mem_takeWhile_imp hx
    · intro x hx
      have := List.head?_dropWhile_not (fun b => !isBoundary b) bs
      rw [Option.mem_def.mp hx] at this
      simpa using this

end SExpression
