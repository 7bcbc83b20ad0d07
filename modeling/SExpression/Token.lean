import SExpression.Number.Shortest

/-! # Tokens

The data of an S-expression is a sequence of tokens.  Nesting is no tree here: an opening token
begins a list, a closing token ends one, and neither has to match the other.  Atoms and strings
carry their text as it stands between the quotes, escape sequences and all.

`Token.written` is the text of a token.  `Token.equal` compares values, so that a float that is not
a number equals nothing, itself included, and the two zeros are equal. -/
set_option autoImplicit false
namespace SExpression

inductive Kind where
  | atom
  | opening
  | closing
  | integer
  | float
  | string
  deriving DecidableEq, Repr

instance : Inhabited Kind := ⟨.atom⟩

inductive Token where
  | atom (text : Bytes)
  | opening
  | closing
  | integer (value : Int)
  | float (value : Binary64)
  | string (text : Bytes)
  deriving DecidableEq, Repr

namespace Token

def kind : Token → Kind
  | atom _ => .atom
  | opening => .opening
  | closing => .closing
  | integer _ => .integer
  | float _ => .float
  | string _ => .string

def text? : Token → Option Bytes
  | atom text => some text
  | string text => some text
  | _ => none

def equal : Token → Token → Bool
  | float x, float y => x.equal y
  | t, u => t == u

/-- A string gets back the quotes around it; its text is in written form already. -/
def written : Token → Bytes
  | atom text => text
  | opening => [byte '(']
  | closing => [byte ')']
  | integer value => Bytes.ofString (toString value)
  | float value => value.text
  | string text => byte '"' :: text ++ [byte '"']

end Token

/-- What a token adds to the number of open lists. -/
def Token.step : Token → Int
  | opening => 1
  | closing => -1
  | _ => 0

/-- The number of lists that a sequence of tokens opens beyond those it closes. -/
def balance (ts : List Token) : Int := ts.foldr (fun t n => t.step + n) 0

@[simp] theorem balance_nil : balance [] = 0 := rfl

@[simp] theorem balance_cons (t : Token) (ts : List Token) :
    balance (t :: ts) = t.step + balance ts := rfl

@[simp] theorem balance_append (ts us : List Token) :
    balance (ts ++ us) = balance ts + balance us := by
  induction ts with
  | nil => simp
  | cons t ts ih => simp [ih, Int.add_assoc]

end SExpression
