import SExpression.Cursor.Extract

/-! # Operations on cursors

Everything that can be done to a cursor, as data.  `apply` gives the cursor that an operation leads
to, and `text?` the text that it hands out on the way; an operation that does not match leads
nowhere. -/
set_option autoImplicit false
namespace SExpression

namespace Cursor

/-- Past the next piece between separators and the separator after it. -/
def splitOff (c : Cursor) (separator : UInt8) : Cursor :=
  if c.isEmpty then c else (c.takeUntil (· == separator)).1.advance 1

inductive Operation where
  | advance (n : Nat)
  | atEnd
  | take (n : Nat)
  | dropWhile (p : UInt8 → Bool)
  | skipWhitespace
  | seek (b : UInt8)
  | skipLine
  | skipToNextLine
  | seekLineLast
  | seekLast (p : UInt8 → Bool)
  | skipComment
  | skipComments
  | takeUntil (p : UInt8 → Bool)
  | field (b : UInt8)
  | word
  | wordOf (p : UInt8 → Bool)
  | identifier
  | identifierWith (others : Bytes)
  | wordIn (bytes : Bytes)
  | qualifiedName (separator : UInt8)
  | quoted (delimiter : UInt8) (escapes : Bool)
  | splitOff (separator : UInt8)
  | expect (literal : Bytes)
  | trimEnd
  | trim
  | int16
  | int32
  | uint32
  | hexadecimal
  | float

namespace Operation

def apply (c : Cursor) : Operation → Option Cursor
  | advance n => some (c.advance n)
  | atEnd => some c.atEnd
  | take n => some (c.take n)
  | dropWhile p => some (c.dropWhile p)
  | skipWhitespace => some c.skipWhitespace
  | seek b => some (c.seek b)
  | skipLine => some c.skipLine
  | skipToNextLine => some c.skipToNextLine
  | seekLineLast => some c.seekLineLast
  | seekLast p => some (c.seekLast p)
  | skipComment => some c.skipComment
  | skipComments => some c.skipComments
  | takeUntil p => some (c.takeUntil p).1
  | field b => some (c.field b).1
  | word => some c.word.1
  | wordOf p => some (c.wordOf p).1
  | identifier => some c.identifier.1
  | identifierWith others => some (c.identifierWith others).1
  | wordIn bytes => some (c.wordIn bytes).1
  | qualifiedName separator => some (c.qualifiedName separator).1
  | quoted delimiter escapes => (c.quoted? delimiter escapes).map (·.1)
  | splitOff separator => some (c.splitOff separator)
  | expect literal => c.expect? literal
  | trimEnd => some c.trimEnd
  | trim => some c.trim
  | int16 => c.int16?.map (·.1)
  | int32 => c.int32?.map (·.1)
  | uint32 => c.uint32?.map (·.1)
  | hexadecimal => c.hexadecimal?.map (·.1)
  | float => c.float?.map (·.1)

/-- The text that an operation hands out, if it hands one out. -/
def text? (c : Cursor) : Operation → Option Bytes
  | takeUntil p => some (c.takeUntil p).2
  | field b => some (c.field b).2
  | word => some c.word.2
  | wordOf p => some (c.wordOf p).2
  | identifier => some c.identifier.2
  | identifierWith others => some (c.identifierWith others).2
  | wordIn bytes => some (c.wordIn bytes).2
  | qualifiedName separator => some (c.qualifiedName separator).2
  | quoted delimiter escapes => (c.quoted? delimiter escapes).map (·.2)
  | splitOff separator => if c.isEmpty then none else some (c.takeUntil (· == separator)).2
  | _ => none

/-- Where an operation goes on from if it leads nowhere, too. -/
def applyOrStay (c : Cursor) (o : Operation) : Cursor := (o.apply c).getD c

/-- Whether the operation may move the end of the range. -/
def Shortens : Operation → Prop
  | take _ | trimEnd | trim => True
  | _ => False

end Operation

end Cursor

end SExpression
