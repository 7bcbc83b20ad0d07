import SExpression.Text.Position

/-! # How a parse ends

A parse runs to the end of its range and always has an outcome.  Outcomes are found at offsets, and
reported at the positions of these offsets, so the type has the place as a parameter. -/
set_option autoImplicit false
namespace SExpression

inductive ParseError where
  | missingOpening (found : Char)
  | unexpectedClosing
  | nestingTooDeep
  | unclosedList
  deriving DecidableEq, Repr

def ParseError.message : ParseError → String
  | missingOpening found => s!"expected '(', got '{found}'"
  | unexpectedClosing => "unexpected closing character ')'"
  | nestingTooDeep => "nesting too deep"
  | unclosedList => "premature EOF while expecting closing character ')' for '('"

/-- A parse error and where it was found. -/
structure PositionedError where
  error : ParseError
  position : Position
  deriving DecidableEq, Repr

def PositionedError.message (e : PositionedError) : String := s!"{e.error.message} {e.position}"

inductive Outcome (P : Type) where
  /-- Every list is closed. -/
  | complete
  /-- The text ended inside a list; the innermost of these begins at the given place. -/
  | truncated (opening : P)
  | malformed (error : ParseError) (place : P)
  deriving DecidableEq, Repr

namespace Outcome

def map {P Q : Type} (f : P → Q) : Outcome P → Outcome Q
  | complete => complete
  | truncated opening => truncated (f opening)
  | malformed error place => malformed error (f place)

/-- The error that an outcome amounts to where only a complete parse will do. -/
def error? : Outcome Position → Option PositionedError
  | complete => none
  | truncated opening => some ⟨.unclosedList, opening⟩
  | malformed error place => some ⟨error, place⟩

end Outcome

end SExpression
