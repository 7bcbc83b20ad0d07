/-! # Bytes and their classes

Text is held as the list of its bytes, and every scanner of this library works on bytes.  The
classes below are the ones the scanners stop at.  Whitespace is tab, space, carriage return and
line feed and nothing else: form feed, vertical tab and every byte beyond ASCII are ordinary.

`Bytes.ofString` gives the UTF-8 bytes of a string. -/
set_option autoImplicit false
namespace SExpression

/-- A text, or any other byte string, as the list of its bytes. -/
abbrev Bytes := List UInt8

abbrev byte (c : Char) : UInt8 := c.toUInt8

section Classes

def isWhitespace (b : UInt8) : Bool :=
  b == byte '\t' || b == byte ' ' || b == byte '\r' || b == byte '\n'

def isLineEnd (b : UInt8) : Bool := b == byte '\r' || b == byte '\n'

def isDigit (b : UInt8) : Bool := byte '0' ≤ b && b ≤ byte '9'

def isLetter (b : UInt8) : Bool :=
  (byte 'A' ≤ b && b ≤ byte 'Z') || (byte 'a' ≤ b && b ≤ byte 'z')

def isAlphanumeric (b : UInt8) : Bool := isLetter b || isDigit b

/-- The bytes that end a bare token: brackets, the quote, the comment sign and whitespace. -/
def isBoundary (b : UInt8) : Bool :=
  b == byte '(' || b == byte ')' || b == byte '"' || b == byte ';' || isWhitespace b

theorem isLineEnd_isWhitespace {b : UInt8} (h : isLineEnd b = true) : isWhitespace b = true := by
  simp only [isLineEnd, isWhitespace, Bool.or_eq_true] at h ⊢
  rcases h with h | h
  · exact Or.inl (Or.inr h)
  · exact Or.inr h

end Classes

namespace Bytes

def ofString (s : String) : Bytes := s.toUTF8.data.toList

def toByteArray (bs : Bytes) : ByteArray := ⟨bs.toArray⟩

end Bytes

end SExpression
