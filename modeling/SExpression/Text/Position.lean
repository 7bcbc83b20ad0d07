import SExpression.Text.Byte

/-! # Positions in a text

A position counts from zero the line feeds before an offset and the bytes since the last of them.
A carriage return is a byte like any other here, so a line ending of two bytes counts once.  In
messages the line is counted from one and the column from zero. -/
set_option autoImplicit false
namespace SExpression

structure Position where
  line : Nat
  column : Nat
  deriving DecidableEq, Repr

namespace Position

def origin : Position := ⟨0, 0⟩

def after (p : Position) (b : UInt8) : Position :=
  if b = byte '\n' then ⟨p.line + 1, 0⟩ else ⟨p.line, p.column + 1⟩

/-- The position of an offset in a buffer; an offset past the end has the position of the end. -/
def ofOffset (buffer : Bytes) (offset : Nat) : Position :=
  (buffer.take offset).foldl after origin

protected def toString (p : Position) : String := s!"@{p.line + 1}.{p.column}"

instance : ToString Position := ⟨Position.toString⟩

end Position

end SExpression
