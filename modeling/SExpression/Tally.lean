import SExpression.Report

/-! # Reports drawn up token by token

A report needs one pass over the tokens.  The tally is what it keeps: the number of open lists, the
two counts and the lines printed so far.  Where a line would lie beyond the margin, the lines before
it are all that is left of the tally. -/
set_option autoImplicit false
namespace SExpression.Report

structure Tally where
  depth : Nat
  topLevel : Nat
  entered : Nat
  printed : Bytes
  deriving DecidableEq, Repr

namespace Tally

def start : Tally := ⟨0, 0, 0, []⟩

/-- Counts a token; a bracket that closes nothing changes nothing. -/
def count (a : Tally) : Token → Tally
  | .opening =>
    { a with
      depth := a.depth + 1
      topLevel := if a.depth = 0 then a.topLevel + 1 else a.topLevel
      entered := a.entered + 1 }
  | .closing => { a with depth := a.depth - 1 }
  | _ => a

/-- The indentation of the next token. -/
def level (a : Tally) : Token → Nat
  | .closing => a.depth - 1
  | _ => a.depth

def printLine (a : Tally) (t : Token) : Tally :=
  { a.count t with printed := a.printed ++ line (a.level t, t) }

/-- One turn of the loop.  The error is what was printed when the margin was passed. -/
def take (print : Bool) (a : Tally) (t : Token) : Except Bytes Tally :=
  if !print then .ok (a.count t)
  else if margin < a.level t then .error a.printed
  else .ok (a.printLine t)

def ofTokens (print : Bool) (ts : List Token) : Except Bytes Tally := ts.foldlM (take print) start

def summary (a : Tally) (balance : Int) : Bytes :=
  Bytes.ofString
    s!";; count_toplevel = {a.topLevel}, count_enter = {a.entered}, balance = {balance}\n"

end Tally

/-- The message for lists that lie beyond the margin. -/
def tooDeep (path : String) : String := s!"lists nested too deeply in {Quoted.encode path}"

def drawUp (q : Request) (text : Bytes) : Result :=
  let (ts, p) := parsed q.chained q.settings text
  match Tally.ofTokens q.print ts with
  | .error printed => ⟨printed, some (tooDeep q.path)⟩
  | .ok a =>
    ⟨a.printed ++ (if q.write then Layout.writeLine ts else []) ++ a.summary p.balance,
      complaint q.path p.outcome⟩

end SExpression.Report
