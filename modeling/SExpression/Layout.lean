import SExpression.Token

/-! # Writing tokens as text

Tokens are written one after the other.  Before an opening bracket at depth zero or below stands a
line feed; between other neighbours a space, but none after an opening bracket and none before a
closing one.  The depth counts opening against closing brackets and may become negative. -/
set_option autoImplicit false
namespace SExpression.Layout

/-- What stands between a token and the one before it, at the depth before the token. -/
def separator (depth : Int) (previous t : Token) : Bytes :=
  if depth ≤ 0 ∧ t = .opening then [byte '\n']
  else if previous ≠ .opening ∧ t ≠ .closing then [byte ' ']
  else []

/-- The text of the tokens after `previous`. -/
def writeAfter (depth : Int) (previous : Token) : List Token → Bytes
  | [] => []
  | t :: rest => separator depth previous t ++ t.written ++ writeAfter (depth + t.step) t rest

def write : List Token → Bytes
  | [] => []
  | t :: rest => t.written ++ writeAfter t.step t rest

/-- The text with a line feed at the end, unless it is empty. -/
def writeLine (ts : List Token) : Bytes :=
  let text := write ts
  if text = [] then [] else text ++ [byte '\n']

end SExpression.Layout
