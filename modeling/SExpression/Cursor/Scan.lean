import SExpression.Cursor.Basic
import SExpression.Text.Extent

/-! # Scanning with a cursor

Each scan moves the beginning of the range to a place found in its bytes and leaves the end alone;
a forward search that finds nothing goes to the end and a backward one stays where it is.  Lines and
comments reach as far as `lineLength` and `commentLength` say. -/
set_option autoImplicit false
namespace SExpression

namespace Cursor
variable (c : Cursor)

def dropWhile (p : UInt8 → Bool) : Cursor := c.advance (c.bytes.takeWhile p).length

def skipWhitespace : Cursor := c.dropWhile isWhitespace

/-- To the next byte `b`, or to the end. -/
def seek (b : UInt8) : Cursor := c.dropWhile (· != b)

def skipLine : Cursor := c.advance (lineLength c.bytes)

def skipToNextLine : Cursor := c.skipLine.skipWhitespace

/-- To the last character before the next line ending; stays where no character precedes it. -/
def seekLineLast : Cursor :=
  let line := c.text.takeWhile fun b => !isLineEnd b
  c.advance ((lastIndex? (fun b => !continues b) line).getD 0)

/-- To the last byte of a class, if the range has one. -/
def seekLast (p : UInt8 → Bool) : Cursor :=
  match lastIndex? p c.bytes with
  | some i => c.advance i
  | none => c

def skipComment : Cursor := c.advance (commentLength c.bytes)

def skipComments (c : Cursor) : Cursor :=
  let blank := c.skipWhitespace
  let past := blank.skipComment
  if blank.start < past.start then past.skipComments else blank
termination_by c.length
decreasing_by
  have hlt : c.skipWhitespace.start < c.skipWhitespace.skipComment.start := by assumption
  have hblank : c.start ≤ c.skipWhitespace.start := c.start_le_start_advance _
  have hpast := c.skipWhitespace.skipComment.start_le_stop
  have hstop : c.skipWhitespace.skipComment.stop = c.stop := rfl
  show c.skipWhitespace.skipComment.length < c.length
  simp only [length]
  omega

/-- Without the whitespace at the end of the range. -/
def trimEnd : Cursor := c.take (c.length - (c.bytes.reverse.takeWhile isWhitespace).length)

def trim : Cursor := c.skipWhitespace.trimEnd

/-- Past the given bytes, if the range begins with them. -/
def expect? (literal : Bytes) : Option Cursor :=
  if literal.isPrefixOf c.bytes then some (c.advance literal.length) else none

end Cursor

end SExpression
