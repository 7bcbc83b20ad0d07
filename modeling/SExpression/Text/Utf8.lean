import SExpression.Text.Byte

/-! # Characters inside a byte buffer

A byte of the range 80 to BF continues a character of UTF-8, and every other byte begins one.  An
offset lies on a character boundary of a buffer when it is the buffer's end or a byte that begins a
character stands there.  `slice` hands out the bytes between two offsets only if both lie on
boundaries, and no bytes otherwise, so that no piece of text ever holds half a character. -/
set_option autoImplicit false
namespace SExpression

/-- The byte continues a character that began before it. -/
def continues (b : UInt8) : Bool := 0x80 ≤ b && b < 0xC0

namespace Bytes

/-- The bytes are the UTF-8 encoding of some list of characters. -/
def IsUtf8 (bs : Bytes) : Prop := bs.toByteArray.IsValidUTF8

instance (bs : Bytes) : Decidable bs.IsUtf8 :=
  inferInstanceAs (Decidable bs.toByteArray.IsValidUTF8)

def toString? (bs : Bytes) : Option String := String.fromUTF8? bs.toByteArray

def firstChar? (bs : Bytes) : Option Char := (bs.take 4).toByteArray.utf8DecodeChar? 0

def isBoundaryAt (buffer : Bytes) (i : Nat) : Bool :=
  match buffer.drop i with
  | [] => i == buffer.length
  | b :: _ => !continues b

/-- The bytes from offset `i` to offset `j`, or none of them if either offset cuts a character. -/
def slice (buffer : Bytes) (i j : Nat) : Bytes :=
  if buffer.isBoundaryAt i && buffer.isBoundaryAt j then (buffer.drop i).take (j - i) else []

end Bytes

end SExpression
