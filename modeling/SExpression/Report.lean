import SExpression.Chain
import SExpression.Document

/-! # Reports on a file

A report parses a file and says how many lists there are, how many of them lie inside no other, and
how many are left open.  It can also print the tokens one per line, indented by the number of lists
around them, and write the data out again.  The parse itself is an error only at the end of the
report.

The indentation is cut from a fixed margin.  A token that lies deeper than the margin is wide ends
the report at once: the lines before it are printed, and nothing else. -/
set_option autoImplicit false
namespace SExpression

namespace Report

structure Request where
  chained : Bool
  print : Bool
  write : Bool
  settings : Settings
  path : String
  deriving DecidableEq, Repr

/-- What goes to the output, and the message of the error if there is one. -/
structure Result where
  output : Bytes
  error : Option String
  deriving DecidableEq, Repr

def margin : Nat := 66

section Depth

/-- The number of open lists after a token; a bracket that closes none leaves it at zero. -/
def depthAfter (depth : Nat) : Token → Nat
  | .opening => depth + 1
  | .closing => depth - 1
  | _ => depth

/-- The indentation of a token: brackets of a list stand outside of it. -/
def indentation (depth : Nat) (t : Token) : Nat := min depth (depthAfter depth t)

def indented (depth : Nat) : List Token → List (Nat × Token)
  | [] => []
  | t :: rest => (indentation depth t, t) :: indented (depthAfter depth t) rest

/-- The number of opening brackets inside no list. -/
def topLevelCount (depth : Nat) : List Token → Nat
  | [] => 0
  | t :: rest =>
    (if t = .opening ∧ depth = 0 then 1 else 0) + topLevelCount (depthAfter depth t) rest

end Depth

def line (p : Nat × Token) : Bytes :=
  List.replicate p.1 (byte ' ') ++ p.2.written ++ [byte '\n']

/-- The lines of the tokens up to the first that lies beyond the margin. -/
def lines (ts : List Token) : Bytes :=
  ((indented 0 ts).takeWhile fun p => p.1 ≤ margin).flatMap line

def isTooDeep (ts : List Token) : Bool := (indented 0 ts).any fun p => margin < p.1

/-- The counts, as the last line of the output. -/
def summary (ts : List Token) (balance : Int) : Bytes :=
  let opened := (ts.filter (· = .opening)).length
  Bytes.ofString
    s!";; count_toplevel = {topLevelCount 0 ts}, count_enter = {opened}, balance = {balance}\n"

def complaint (path : String) : Outcome Position → Option String
  | .complete => none
  | .truncated opening =>
    some s!"premature EOF, list opened at {Quoted.encode path}{opening} is not closed"
  | .malformed error place => some s!"{error.message} in {Quoted.encode path}{place}"

/-- The tokens of a text and the result of the parse, through a chain or through columns. -/
def parsed (chained : Bool) (settings : Settings) (text : Bytes) : List Token × Parsed :=
  if chained then
    let r := parseInto settings (.ofBuffer text) 0 (Chain.Appender.ofChain .empty)
    (r.1.chain.tokens, r.2)
  else
    let r := parseInto settings (.ofBuffer text) 0 (Columns.empty 0 : Columns Bytes)
    (r.1.tokens, r.2)

def ofText (q : Request) (text : Bytes) : Result :=
  let (ts, p) := parsed q.chained q.settings text
  let printed := if q.print then lines ts else []
  if q.print && isTooDeep ts then
    ⟨printed, some s!"lists nested too deeply in {Quoted.encode q.path}"⟩
  else
    ⟨printed ++ (if q.write then Layout.writeLine ts else []) ++ summary ts p.balance,
      complaint q.path p.outcome⟩

/-- The report on the content of a file, or on the fault met when reading it. -/
def ofContent (q : Request) (content : Except Fault Bytes) : Result :=
  match content.bind Document.decode with
  | .ok text => ofText q text
  | .error fault => ⟨[], some fault.message⟩

end Report

end SExpression
