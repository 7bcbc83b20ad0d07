import SExpression.Token
import SExpression.Settings
import SExpression.Cursor.Extract

/-! # Bare tokens

A bare token is a float, an integer or an atom, in this order of preference.  A number counts if
the policy accepts what the scan left over: the leading policy accepts anything, the whole policy
nothing but the end of the token. -/
set_option autoImplicit false
namespace SExpression

/-- Whether a reading of a token that is `length` bytes long makes it a number. -/
def NumericPolicy.accepts {α : Type} (policy : NumericPolicy) (length : Nat) (r : Reading α) :
    Bool :=
  match policy with
  | .leading => true
  | .whole => r.length == length

def Token.ofBare (policy : NumericPolicy) (text : Bytes) : Token :=
  match (scanFloat text).filter (policy.accepts text.length) with
  | some r => .float r.value
  | none =>
    match (IntegerType.int32.scanSigned text).filter (policy.accepts text.length) with
    | some r => .integer r.value
    | none => .atom text

/-- A bare token is what the scan of a float reads, or what the scan of an integer reads, or its own
text. -/
theorem Token.ofBare_cases (policy : NumericPolicy) (text : Bytes) :
    (∃ r, scanFloat text = some r ∧ ofBare policy text = .float r.value) ∨
    (∃ r, IntegerType.int32.scanSigned text = some r ∧ ofBare policy text = .integer r.value) ∨
    ofBare policy text = .atom text := by
  unfold ofBare
  split
  · rename_i r hr
    exact Or.inl ⟨r, (Option.filter_eq_some_iff.mp hr).1, rfl⟩
  · split
    · rename_i r hr
      exact Or.inr (Or.inl ⟨r, (Option.filter_eq_some_iff.mp hr).1, rfl⟩)
    · exact Or.inr (Or.inr rfl)

/-- The token that a range stands for.  A range that cuts a character is an atom without text. -/
def Cursor.bareToken (policy : NumericPolicy) (c : Cursor) : Token :=
  match Token.ofBare policy c.bytes with
  | .atom _ => .atom c.text
  | t => t

end SExpression
