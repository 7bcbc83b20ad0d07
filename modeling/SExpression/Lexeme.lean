import SExpression.Bare

/-! # Lexemes

A text is a sequence of lexemes with gaps before, between and after them.  A gap is a run of
whitespace and comments, where a comment goes from a semicolon to the end of its line.  A lexeme is
a bracket, a quoted text, or a bare text, the longest run of bytes that are no boundaries.  A
quoted text that nothing closes takes the rest, so it can only be the last lexeme.

A text may be torn: it ends in the middle of a character.  A lexeme that runs up to a torn end has
its extent as usual, but nothing of its text can be read. -/
set_option autoImplicit false
namespace SExpression

/-- A thing found in a text and the offset at which it begins. -/
structure Located (α : Type) where
  offset : Nat
  value : α
  deriving DecidableEq, Repr

inductive Lexeme where
  | opening
  | closing
  | quoted (text : Bytes) (closed : Bool)
  | bare (text : Bytes)
  deriving DecidableEq, Repr

/-- The length of the gap at the front; `comment` says that the front lies inside a comment. -/
def gapLength (comment : Bool) : Bytes → Nat
  | [] => 0
  | b :: rest =>
    if comment then 1 + gapLength (!isLineEnd b) rest
    else if isWhitespace b then 1 + gapLength false rest
    else if b = byte ';' then 1 + gapLength true rest
    else 0

namespace Lexeme

section Scanning
variable (escapes torn : Bool)

/-- The lexeme that begins with byte `b`, and how many of the bytes after `b` belong to it. -/
def first (b : UInt8) (rest : Bytes) : Lexeme × Nat :=
  if b = byte '(' then (opening, 0)
  else if b = byte ')' then (closing, 0)
  else if b = byte '"' then
    let n := unquotedLength (byte '"') escapes false rest
    if (rest.drop n).isEmpty then (quoted (if torn then [] else rest.take n) false, n)
    else (quoted (rest.take n) true, n + 1)
  else
    let run := rest.takeWhile fun b => !isBoundary b
    let cut := torn && (rest.drop run.length).isEmpty
    (bare (if cut then [] else b :: run), run.length)

/-- All lexemes of a text whose first byte has the given offset. -/
def all (offset : Nat) (bs : Bytes) : List (Located Lexeme) :=
  let gap := gapLength false bs
  match _ : bs.drop gap with
  | [] => []
  | b :: rest =>
    let l := first escapes torn b rest
    ⟨offset + gap, l.1⟩ :: all (offset + gap + 1 + l.2) (rest.drop l.2)
termination_by bs.length
decreasing_by
  rename_i h
  have := congrArg List.length h
  simp only [List.length_drop, List.length_cons] at this ⊢
  omega

end Scanning

/-- The token that a lexeme stands for.  A bare lexeme of which nothing can be read stands for no
token, a quoted one for the empty string. -/
def token? (policy : NumericPolicy) : Lexeme → Option Token
  | opening => some .opening
  | closing => some .closing
  | quoted text _ => some (.string text)
  | bare [] => none
  | bare text => some (Token.ofBare policy text)

end Lexeme

def Cursor.lexemes (escapes : Bool) (c : Cursor) : List (Located Lexeme) :=
  Lexeme.all escapes (!c.buffer.isBoundaryAt c.stop) c.start c.bytes

end SExpression
