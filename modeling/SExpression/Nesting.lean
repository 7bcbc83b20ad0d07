import SExpression.Lexeme
import SExpression.Outcome

/-! # Matching brackets

Brackets are matched while the lexemes pass by.  `Nesting` remembers the offsets of the lists that
are open, innermost first, and the first closing bracket that found none of them open.  Such a
bracket is stray: it closes nothing and the matching goes on after it as if it were not there, but
the outcome is an error whatever follows.

`matchBrackets` gives the lexemes up to the first opening bracket that would nest deeper than the
limit allows, and the outcome.  The limit overrides a stray bracket seen before it. -/
set_option autoImplicit false
namespace SExpression

structure Nesting where
  opened : List Nat
  stray : Option Nat
  deriving DecidableEq, Repr

namespace Nesting

def start : Nesting := ⟨[], none⟩

/-- The nesting after one more lexeme. -/
def after (n : Nesting) (l : Located Lexeme) : Nesting :=
  match l.value with
  | .opening => { n with opened := l.offset :: n.opened }
  | .closing =>
    match n.opened with
    | [] => { n with stray := n.stray.or (some l.offset) }
    | _ :: outer => { n with opened := outer }
  | _ => n

def isFull (limit : Option Nat) (n : Nesting) : Bool :=
  match limit with
  | some most => most ≤ n.opened.length
  | none => false

def outcome (n : Nesting) : Outcome Nat :=
  match n.stray, n.opened with
  | some offset, _ => .malformed .unexpectedClosing offset
  | none, [] => .complete
  | none, offset :: _ => .truncated offset

end Nesting

def matchBrackets (limit : Option Nat) (n : Nesting) :
    List (Located Lexeme) → List (Located Lexeme) × Outcome Nat
  | [] => ([], n.outcome)
  | l :: rest =>
    if l.value = .opening ∧ n.isFull limit then ([], .malformed .nestingTooDeep l.offset)
    else
      let r := matchBrackets limit (n.after l) rest
      (l :: r.1, r.2)

end SExpression
