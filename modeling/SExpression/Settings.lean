/-! # Settings

What a reader may choose about the language it reads. -/
set_option autoImplicit false
namespace SExpression

/-- How much of a bare token has to be a number for the token to be one. -/
inductive NumericPolicy where
  /-- A number at the front is enough, and the rest of the token is dropped. -/
  | leading
  /-- The number has to be the whole token; any other token is an atom. -/
  | whole
  deriving DecidableEq, Repr

structure Settings where
  numeric : NumericPolicy
  /-- Whether a backslash in a string hides the byte after it. -/
  escapes : Bool
  /-- How many lists may be open at once; unlimited if absent. -/
  maxDepth : Option Nat
  deriving DecidableEq, Repr

namespace Settings

def lenient : Settings := ⟨.leading, true, some 500⟩

def strict : Settings := ⟨.whole, true, some 500⟩

instance : Inhabited Settings := ⟨lenient⟩

end Settings

end SExpression
