import Mathlib.Algebra.Group.Nat.Defs
import Mathlib.Data.List.Infix
import SExpression.Layout
import SExpression.Proofs.Joining
import SExpression.Proofs.NumberText
import SExpression.Proofs.Outcomes

/-! # Parsing undoes writing

Written tokens are taken apart into the separators between them and one lexeme for each token
(`Layout.isOf_parts`): a bare text never touches another one, since a separator stands between
them or a closing bracket follows.  What a parse makes of these lexemes is the tokens themselves,
up to what no text keeps (`Token.readBack`). -/
set_option autoImplicit false
namespace SExpression

namespace Token

/-- The token that comes back when a token is written and parsed. -/
def readBack : Token → Token
  | integer value => .integer (value.bmod (2 ^ 32))
  | float value =>
    if value.isNaN then .atom (Bytes.ofString "NaN")
    else if value.isInfinite then .atom (Bytes.ofString (if value.negative then "-inf" else "inf"))
    else .float value
  | t => t

/-- The text of the token does not fall apart: an atom is a single bare token and no number, and no
quote inside a string closes it. -/
def IsWritable (settings : Settings) : Token → Prop
  | atom text =>
    text ≠ [] ∧ (∀ b ∈ text, isBoundary b = false) ∧ ofBare settings.numeric text = .atom text
  | string text => IsEnclosed settings.escapes text
  | _ => True

/-- The lexeme that a token is written as. -/
def lexeme : Token → Lexeme
  | atom text => .bare text
  | opening => .opening
  | closing => .closing
  | integer value => .bare (integer value).written
  | float value => .bare value.text
  | string text => .quoted text true

theorem written_lexeme (t : Token) : t.lexeme.written = t.written := by
  cases t <;> rfl

theorem step_readBack (t : Token) : t.readBack.step = t.step := by
  cases t with
  | float x =>
      simp only [readBack]
      split
      · rfl
      · split <;> rfl
  | _ => rfl

theorem depthAfter_readBack (depth : Nat) (t : Token) :
    Report.depthAfter depth t.readBack = Report.depthAfter depth t := by
  cases t with
  | float x =>
      simp only [readBack]
      split
      · rfl
      · split <;> rfl
  | _ => rfl

/-- Without digits a float leaves its text as an atom. -/
theorem ofBare_text (policy : NumericPolicy) (x : Binary64) :
    ofBare policy x.text = (float x).readBack := by
  rcases kinds x with h | h | h
  · rw [ofBare_nan x policy h, text_nan x h]
    simp [readBack, h]
  · have hnan : x.isNaN = false := by
      simp only [Binary64.isInfinite, Binary64.isNaN, beq_iff_eq, decide_eq_false_iff_not] at h ⊢
      omega
    rw [ofBare_infinite x policy h, text_infinite x h]
    simp only [readBack, hnan, h, Bool.false_eq_true, if_false, if_true]
    cases x.negative <;> rfl
  · have hother : x.isNaN = false ∧ x.isInfinite = false := by
      simp only [Binary64.isFinite, Binary64.isInfinite, Binary64.isNaN, decide_eq_true_eq,
        beq_eq_false_iff_ne, decide_eq_false_iff_not] at h ⊢
      omega
    rw [ofBare_finite x policy h]
    simp [readBack, hother]

theorem token_lexeme (settings : Settings) (t : Token) (h : t.IsWritable settings) :
    t.lexeme.token settings.numeric = t.readBack := by
  cases t with
  | atom text => exact h.2.2
  | integer n => exact ofBare_integer settings.numeric n
  | float x => exact ofBare_text settings.numeric x
  | _ => rfl

theorem isRun_lexeme (settings : Settings) (t : Token) (text : Bytes) (h : t.IsWritable settings)
    (hbare : t.lexeme = .bare text) : IsRun text := by
  cases t with
  | atom text' =>
      cases hbare
      exact ⟨h.1, h.2.1⟩
  | integer n =>
      cases hbare
      exact isRun_written_integer n
  | float x =>
      cases hbare
      exact isRun_text x
  | _ => cases hbare

/-- The lexeme of a token is well formed wherever a boundary follows it, and if it is no bare text
anywhere. -/
theorem lexeme_standsBefore (settings : Settings) (t : Token) (rest : Bytes)
    (h : t.IsWritable settings)
    (hrest : ∀ text, t.lexeme = .bare text → ∀ b ∈ rest.head?, isBoundary b = true) :
    t.lexeme.StandsBefore settings.escapes rest := by
  cases hl : t.lexeme with
  | opening => trivial
  | closing => trivial
  | bare text =>
      obtain ⟨hne, hrun⟩ := isRun_lexeme settings t text h hl
      exact ⟨hne, hrun, hrest text hl⟩
  | quoted text closed =>
      cases t with
      | string text' =>
          cases hl
          exact h
      | _ => cases hl

end Token

namespace Layout
open Dissection (textOf Grammatical)

/-- The written tokens after `previous`, each lexeme with the separator before it. -/
def partsAfter (depth : Int) (previous : Token) : List Token → List (Bytes × Lexeme)
  | [] => []
  | t :: rest => (separator depth previous t, t.lexeme) :: partsAfter (depth + t.step) t rest

def parts : List Token → List (Bytes × Lexeme)
  | [] => []
  | t :: rest => ([], t.lexeme) :: partsAfter t.step t rest

section Writing

theorem textOf_partsAfter (tail : Bytes) (depth : Int) (previous : Token) (ts : List Token) :
    textOf tail (partsAfter depth previous ts) = writeAfter depth previous ts ++ tail := by
  induction ts generalizing depth previous with
  | nil => rfl
  | cons t ts ih =>
      rw [partsAfter, textOf, ih, writeAfter, t.written_lexeme]
      simp only [List.append_assoc]

theorem textOf_parts (tail : Bytes) (ts : List Token) : textOf tail (parts ts) = write ts ++ tail := by
  cases ts with
  | nil => rfl
  | cons t ts =>
      rw [parts, textOf, textOf_partsAfter, write, t.written_lexeme]
      simp only [List.nil_append, List.append_assoc]

theorem isGap_separator (rest : Bytes) (depth : Int) (previous t : Token) :
    IsGap rest (separator depth previous t) := by
  unfold separator
  split
  · exact .space _ _ rfl .nil
  · split
    · exact .space _ _ rfl .nil
    · exact .nil

/-- Nothing that is written after a bare text continues it. -/
theorem boundary_after_bare (tail : Bytes) (depth : Int) (previous : Token) (ts : List Token)
    (text : Bytes) (hbare : previous.lexeme = .bare text)
    (htail : ∀ b ∈ tail.head?, isBoundary b = true) :
    ∀ b ∈ (textOf tail (partsAfter depth previous ts)).head?, isBoundary b = true := by
  cases ts with
  | nil => exact htail
  | cons t ts =>
      intro b hb
      rw [partsAfter, textOf, separator] at hb
      have hprevious : previous ≠ .opening := by
        rintro rfl
        cases hbare
      split at hb
      · obtain rfl : byte '\n' = b := by simpa using hb
        rfl
      · split at hb
        · obtain rfl : byte ' ' = b := by simpa using hb
          rfl
        · -- without a separator the next token is a closing bracket
          rename_i hspace
          have hclosing : t = .closing := by
            by_contra h
            exact hspace ⟨hprevious, h⟩
          subst hclosing
          obtain rfl : byte ')' = b := by simpa [Token.lexeme, Lexeme.written] using hb
          rfl

theorem grammatical_partsAfter (settings : Settings) (tail : Bytes) (depth : Int)
    (previous : Token) (ts : List Token) (hts : ∀ t ∈ ts, t.IsWritable settings)
    (hgap : IsGap [] tail) (htail : ∀ b ∈ tail.head?, isBoundary b = true) :
    Grammatical settings.escapes tail (partsAfter depth previous ts) := by
  induction ts generalizing depth previous with
  | nil => exact hgap
  | cons t ts ih =>
      refine ⟨isGap_separator _ depth previous t, ?_, ?_⟩
      · apply t.lexeme_standsBefore settings _ (hts t (by simp))
        intro text hbare
        exact boundary_after_bare tail _ t ts text hbare htail
      · exact ih _ _ fun u hu => hts u (by simp [hu])

theorem isOf_parts (settings : Settings) (tail : Bytes) (ts : List Token)
    (hts : ∀ t ∈ ts, t.IsWritable settings) (hgap : IsGap [] tail)
    (htail : ∀ b ∈ tail.head?, isBoundary b = true) :
    Dissection.IsOf settings.escapes (write ts ++ tail) ⟨parts ts, tail⟩ := by
  refine ⟨textOf_parts tail ts, ?_⟩
  cases ts with
  | nil => exact hgap
  | cons t ts =>
      refine ⟨.nil, ?_, ?_⟩
      · apply t.lexeme_standsBefore settings _ (hts t (by simp))
        intro text hbare
        exact boundary_after_bare tail _ t ts text hbare htail
      · exact grammatical_partsAfter settings tail _ t ts (fun u hu => hts u (by simp [hu])) hgap htail

theorem lexemes_partsAfter (depth : Int) (previous : Token) (ts : List Token) :
    (partsAfter depth previous ts).map Prod.snd = ts.map Token.lexeme := by
  induction ts generalizing depth previous with
  | nil => rfl
  | cons t ts ih => rw [partsAfter, List.map_cons, ih, List.map_cons]

theorem lexemes_parts (ts : List Token) : (parts ts).map Prod.snd = ts.map Token.lexeme := by
  cases ts with
  | nil => rfl
  | cons t ts => rw [parts, List.map_cons, lexemes_partsAfter, List.map_cons]

theorem tokens_parts (settings : Settings) (ts : List Token)
    (hts : ∀ t ∈ ts, t.IsWritable settings) :
    (parts ts).map (fun part => part.2.token settings.numeric) = ts.map Token.readBack := by
  calc (parts ts).map (fun part => part.2.token settings.numeric)
      = ((parts ts).map Prod.snd).map (Lexeme.token settings.numeric) := by
        rw [List.map_map]
        rfl
    _ = ts.map fun t => t.lexeme.token settings.numeric := by
        rw [lexemes_parts, List.map_map]
        rfl
    _ = ts.map Token.readBack :=
        List.map_congr_left fun t ht => t.token_lexeme settings (hts t ht)

end Writing

end Layout

section Parsing
variable (settings : Settings) (ts : List Token)

theorem balance_readBack : balance (ts.map Token.readBack) = balance ts := by
  induction ts with
  | nil => rfl
  | cons t ts ih => rw [List.map_cons, balance_cons, balance_cons, Token.step_readBack, ih]

theorem foldl_depthAfter_readBack (depth : Nat) :
    (ts.map Token.readBack).foldl Report.depthAfter depth = ts.foldl Report.depthAfter depth := by
  rw [List.foldl_map]
  congr 1
  funext depth t
  exact t.depthAfter_readBack depth

/-- Of written tokens that nest no deeper than the limit all lexemes are read. -/
theorem parsedLexemes_written (tail : Bytes) (hfirst : ∀ t ∈ ts.head?, t = .opening)
    (hts : ∀ t ∈ ts, t.IsWritable settings)
    (hdepth : ∀ pre, pre <+: ts → ∀ most ∈ settings.maxDepth, pre.foldl Report.depthAfter 0 ≤ most)
    (hgap : IsGap [] tail) (htail : ∀ b ∈ tail.head?, isBoundary b = true) :
    ∃ ls, parsedLexemes settings (.ofBuffer (Layout.write ts ++ tail)) =
        (ls, (ls.foldl Nesting.after .start).outcome) ∧
      ls.filterMap (fun l => l.value.token? settings.numeric) = ts.map Token.readBack := by
  let d : Dissection := ⟨Layout.parts ts, tail⟩
  have hd : d.IsOf settings.escapes (Layout.write ts ++ tail) :=
    Layout.isOf_parts settings tail ts hts hgap htail
  have htokens : d.lexemes.map (Lexeme.token settings.numeric) = ts.map Token.readBack := by
    rw [Dissection.lexemes, List.map_map]
    exact Layout.tokens_parts settings ts hts
  refine ⟨_, parsedLexemes_of_isOf settings _ d hd ?_ ?_, ?_⟩
  · intro part hpart
    cases ts with
    | nil => cases hpart
    | cons t rest =>
        obtain rfl : ([], t.lexeme) = part := Option.some.inj hpart
        rw [hfirst t rfl]
        rfl
  · intro us hus most hmost
    rw [htokens] at hus
    obtain ⟨pre, hpre, rfl⟩ := List.prefix_map_iff.mp hus
    rw [foldl_depthAfter_readBack]
    exact hdepth pre hpre most hmost
  · rw [d.tokens_lexemesIn settings _ hd, htokens]

theorem delivered_written (tail : Bytes) (hfirst : ∀ t ∈ ts.head?, t = .opening)
    (hts : ∀ t ∈ ts, t.IsWritable settings)
    (hdepth : ∀ pre, pre <+: ts → ∀ most ∈ settings.maxDepth, pre.foldl Report.depthAfter 0 ≤ most)
    (hgap : IsGap [] tail) (htail : ∀ b ∈ tail.head?, isBoundary b = true) :
    delivered settings (.ofBuffer (Layout.write ts ++ tail)) = ts.map Token.readBack := by
  obtain ⟨ls, hread, htokens⟩ :=
    parsedLexemes_written settings ts tail hfirst hts hdepth hgap htail
  rw [delivered, hread, htokens]

end Parsing

/-- A list and a bracket too much, with what does not come back as it was. -/
def overclosedList : List Token :=
  [.opening, .integer 0x80000000, .float ⟨true, 0, by decide⟩,
    .float ⟨true, Binary64.infinity, by decide⟩, .string [byte '\\', byte '"'], .closing, .closing]

end SExpression
