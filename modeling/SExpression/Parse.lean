import SExpression.Nesting
import SExpression.Sink

/-! # Parsing

A text that holds data begins with an opening bracket.  From there on the parse goes to the end of
its range, so that several lists, and bare tokens between them, end up in one sequence.  `delivered`
is that sequence and `outcomeAt` the outcome with its offset; both depend on the range and the
settings alone.  A parse into a sink adds the delivered tokens to it one by one, and the balance it
reports goes on from the balance it was given.

A parse that fails has still delivered the tokens before the place of the failure, and in the case
of a stray closing bracket all the others as well. -/
set_option autoImplicit false
namespace SExpression

/-- What is left of the range, how many lists are open, and how the parse ended. -/
structure Parsed where
  rest : Cursor
  balance : Int
  outcome : Outcome Position
  deriving DecidableEq, Repr

namespace Parsed

def isComplete (p : Parsed) : Bool := p.outcome == .complete

/-- The balance of a complete parse; any other outcome is an error. -/
def result (p : Parsed) : Except PositionedError Int :=
  match p.outcome.error? with
  | none => .ok p.balance
  | some e => .error e

end Parsed

section Reading
variable (settings : Settings) (c : Cursor)

/-- The character that stands where an opening bracket is required; the replacement character if
it cannot be read. -/
def foundInstead (offset : Nat) : Char :=
  ((c.buffer.slice offset c.stop).firstChar?).getD '\uFFFD'

/-- The lexemes that are read and the outcome. -/
def parsedLexemes : List (Located Lexeme) × Outcome Nat :=
  match c.lexemes settings.escapes with
  | [] => ([], .complete)
  | l :: rest =>
    if l.value = .opening then matchBrackets settings.maxDepth .start (l :: rest)
    else ([], .malformed (.missingOpening (foundInstead c l.offset)) l.offset)

def delivered : List Token :=
  (parsedLexemes settings c).1.filterMap fun l => l.value.token? settings.numeric

def outcomeAt : Outcome Nat := (parsedLexemes settings c).2

/-- The result of a parse that starts inside `start` open lists. -/
def parse (start : Int) : Parsed where
  rest := c.atEnd
  balance := start + balance (delivered settings c)
  outcome := (outcomeAt settings c).map (Position.ofOffset c.buffer)

def parseInto {σ : Type} [Sink σ] (start : Int) (sink : σ) : σ × Parsed :=
  (feed sink (delivered settings c), parse settings c start)

end Reading

end SExpression
