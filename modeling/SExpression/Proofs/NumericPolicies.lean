import Mathlib.Data.List.Forall2
import SExpression.Proofs.NumericTokens

/-! # What the numeric policy decides

Two parses that differ in their policy read the same lexemes and end in the same way.  Only a bare
lexeme can make a difference, and only in one way: it is a number under the leading policy and an
atom under the whole one (`Relabels`).  No lexeme is one number under the one policy and another
number under the other.  For a float that counts as a whole this is so since a float has precedence
under both policies; an integer that counts as a whole has no point after its digits, so that no
float begins it either (`relabels_ofBare`). -/
set_option autoImplicit false
namespace SExpression

/-- What a token of the leading policy may become under the whole one. -/
inductive Relabels : Token → Token → Prop where
  | same (t : Token) : Relabels t t
  | integer (n : Int) (text : Bytes) : Relabels (.integer n) (.atom text)
  | float (v : Binary64) (text : Bytes) : Relabels (.float v) (.atom text)

namespace Relabels
variable {t u : Token}

theorem step_eq (h : Relabels t u) : t.step = u.step := by
  cases h <;> rfl

theorem eq_of_left (h : Relabels t u) (hinteger : ∀ n, t ≠ .integer n)
    (hfloat : ∀ v, t ≠ .float v) : t = u := by
  cases h with
  | same => rfl
  | integer n text => exact absurd rfl (hinteger n)
  | float v text => exact absurd rfl (hfloat v)

theorem eq_of_right (h : Relabels t u) (hatom : ∀ text, u ≠ .atom text) : t = u := by
  cases h with
  | same => rfl
  | integer n text => exact absurd rfl (hatom text)
  | float v text => exact absurd rfl (hatom text)

end Relabels

theorem getElem?_of_forall₂ {α β : Type} {R : α → β → Prop} {xs : List α} {ys : List β}
    (h : List.Forall₂ R xs ys) (k : Nat) : Option.Rel R xs[k]? ys[k]? := by
  induction h generalizing k with
  | nil => exact .none
  | cons hxy _ ih =>
      cases k with
      | zero => exact .some hxy
      | succ k => exact ih k

section Lexemes

theorem ofBare_leading_of_whole_float {text : Bytes} {v : Binary64}
    (h : Token.ofBare .whole text = .float v) : Token.ofBare .leading text = .float v := by
  obtain ⟨l, hl, rfl⟩ := (ofBare_whole_float_iff text v).mp h
  have hscan := scanFloat_append hl
  rw [List.append_nil] at hscan
  rw [ofBare_eq_float_iff, acceptedFloat_leading]
  exact ⟨text.length, hscan⟩

/-- A whole numeral is no beginning of a literal. -/
theorem ofBare_leading_of_whole_integer {text : Bytes} {n : Int}
    (h : Token.ofBare .whole text = .integer n) : Token.ofBare .leading text = .integer n := by
  obtain ⟨numeral, hnumeral, rfl⟩ := (ofBare_whole_integer_iff text n).mp h
  have hend : AtDigitsEnd [] := by simp [AtDigitsEnd]
  have hscan := scanSigned_append .int32 hnumeral hend
  rw [List.append_nil] at hscan
  rw [ofBare_eq_integer_iff, acceptedFloat_leading, acceptedInteger_leading]
  exact ⟨scanFloat_numeral hnumeral, text.length, hscan⟩

theorem relabels_ofBare (text : Bytes) :
    Relabels (Token.ofBare .leading text) (Token.ofBare .whole text) := by
  rcases Token.ofBare_cases .whole text with ⟨r, _, hfloat⟩ | ⟨r, _, hinteger⟩ | hatom
  · rw [hfloat, ofBare_leading_of_whole_float hfloat]
    exact .same _
  · rw [hinteger, ofBare_leading_of_whole_integer hinteger]
    exact .same _
  · rw [hatom]
    rcases Token.ofBare_cases .leading text with ⟨r, _, h⟩ | ⟨r, _, h⟩ | h <;> rw [h]
    · exact .float r.value text
    · exact .integer r.value text
    · exact .same _

theorem Lexeme.relabels_token? (l : Lexeme) :
    Option.Rel Relabels (l.token? .leading) (l.token? .whole) := by
  cases l with
  | opening => exact .some (.same _)
  | closing => exact .some (.same _)
  | quoted text closed => exact .some (.same _)
  | bare text =>
      cases text with
      | nil => exact .none
      | cons b text => exact .some (relabels_ofBare (b :: text))

end Lexemes

section Parses
variable (settings : Settings) (c : Cursor)

/-- The policy is asked only when the lexemes and their brackets are settled. -/
theorem delivered_policy (policy : NumericPolicy) :
    delivered { settings with numeric := policy } c =
      (parsedLexemes settings c).1.filterMap fun l => l.value.token? policy := rfl

theorem relabels_delivered :
    List.Forall₂ Relabels (delivered { settings with numeric := .leading } c)
      (delivered { settings with numeric := .whole } c) := by
  rw [delivered_policy, delivered_policy]
  apply List.rel_filterMap (R := Eq)
  · rintro l _ rfl
    exact l.value.relabels_token?
  · rw [List.forall₂_eq_eq_eq]

theorem balance_of_relabels {ts us : List Token} (h : List.Forall₂ Relabels ts us) :
    balance ts = balance us := by
  induction h with
  | nil => rfl
  | cons ht _ ih => rw [balance_cons, balance_cons, ht.step_eq, ih]

theorem parse_policy (start : Int) :
    parse { settings with numeric := .leading } c start =
      parse { settings with numeric := .whole } c start := by
  rw [parse, parse, balance_of_relabels (relabels_delivered settings c)]
  rfl

end Parses

/-- Two parses of a range that differ in the numeric policy alone leave the same rest, balance and
outcome, and deliver equally many tokens.  Each is the same in both, or else it is a number under the
leading policy and an atom under the whole one; so what is a number under the whole policy is the
same number under the other, and brackets and strings are the same in both. -/
theorem policy_relabels_numbers (settings : Settings) (src : String) (i j : Nat) (start : Int) :
    let c := Cursor.ofRange (Bytes.ofString src) i j
    let leading : Settings := { settings with numeric := .leading }
    let whole : Settings := { settings with numeric := .whole }
    let ts := delivered leading c
    let us := delivered whole c
    (∀ {σ : Type} [Sink σ] (sink : σ),
      let r := Reader.read leading start c sink
      let r' := Reader.read whole start c sink
      r.1 = feed sink ts ∧ r'.1 = feed sink us ∧ r.2 = r'.2) ∧
    ts.length = us.length ∧
    List.Forall₂ Relabels ts us ∧
    (∀ (k : Nat) (n : Int), us[k]? = some (.integer n) → ts[k]? = some (.integer n)) ∧
    (∀ (k : Nat) (v : Binary64), us[k]? = some (.float v) → ts[k]? = some (.float v)) ∧
    ∀ (k : Nat) (t : Token), t = .opening ∨ t = .closing ∨ (∃ text, t = .string text) →
      (ts[k]? = some t ↔ us[k]? = some t) := by
  intro c leading whole ts us
  have hutf8 : c.buffer.IsUtf8 := Bytes.isUtf8_ofString src
  have hpairs : List.Forall₂ Relabels ts us := relabels_delivered settings c
  have hright : ∀ (k : Nat) (u : Token), (∀ text, u ≠ .atom text) → us[k]? = some u →
      ts[k]? = some u := by
    intro k u hatom hu
    have hpair := getElem?_of_forall₂ hpairs k
    rw [hu] at hpair
    generalize ts[k]? = t at hpair ⊢
    cases hpair with
    | some h => rw [h.eq_of_right hatom]
  refine ⟨?_, hpairs.length_eq, hpairs, ?_, ?_, ?_⟩
  · intro σ _ sink r r'
    have hr : r = parseInto leading c start sink := Reader.read_eq_parseInto leading start c hutf8 sink
    have hr' : r' = parseInto whole c start sink := Reader.read_eq_parseInto whole start c hutf8 sink
    rw [hr, hr']
    exact ⟨rfl, rfl, parse_policy settings c start⟩
  · exact fun k n => hright k (.integer n) (by simp)
  · exact fun k v => hright k (.float v) (by simp)
  · intro k t ht
    constructor
    · intro hts
      have hpair := getElem?_of_forall₂ hpairs k
      rw [hts] at hpair
      generalize us[k]? = u at hpair ⊢
      cases hpair with
      | some h =>
          rw [← h.eq_of_left] <;> rcases ht with rfl | rfl | ⟨text, rfl⟩ <;> simp
    · apply hright
      rcases ht with rfl | rfl | ⟨text, rfl⟩ <;> simp

end SExpression
