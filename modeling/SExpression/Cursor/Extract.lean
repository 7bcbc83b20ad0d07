import SExpression.Cursor.Scan
import SExpression.Number.FloatLiteral

/-! # Taking pieces out of a range

Each function hands out a piece of the text together with the cursor past it.  A word is a run of
bytes of some class, found after leading whitespace; it never holds whitespace and may be empty.  A
quoted section lies between two delimiters, and `split` gives the pieces between separators, where
a last piece that is empty is dropped. -/
set_option autoImplicit false
namespace SExpression

namespace Cursor
variable (c : Cursor)

section Words

def takeUntil (p : UInt8 → Bool) : Cursor × Bytes :=
  let rest := c.dropWhile fun b => !p b
  (rest, c.textTo rest)

/-- The text before the next byte `b`, without leading whitespace; it may hold whitespace. -/
def field (b : UInt8) : Cursor × Bytes := c.skipWhitespace.takeUntil (· == b)

def word : Cursor × Bytes := c.skipWhitespace.takeUntil isWhitespace

def wordOf (p : UInt8 → Bool) : Cursor × Bytes :=
  c.skipWhitespace.takeUntil fun b => isWhitespace b || !p b

/-- A word of underscores, letters and digits. -/
def identifier : Cursor × Bytes := c.wordOf fun b => b == byte '_' || isAlphanumeric b

/-- A word of letters, digits and the given bytes. -/
def identifierWith (others : Bytes) : Cursor × Bytes :=
  c.wordOf fun b => isAlphanumeric b || others.contains b

def wordIn (bytes : Bytes) : Cursor × Bytes := c.wordOf fun b => bytes.contains b

/-- A word of the separator, letters, digits, and dollar, caret and underscore signs. -/
def qualifiedName (separator : UInt8) : Cursor × Bytes :=
  c.wordOf fun b =>
    b == separator || (Bytes.ofString "$^_").contains b || isAlphanumeric b

end Words

/-- The text between the next delimiter and the one that closes it, or the rest of the range if
nothing does; fails where no delimiter follows.  Escape sequences stay as they are. -/
def quoted? (delimiter : UInt8) (escapes : Bool) : Option (Cursor × Bytes) :=
  let before := unquotedLength delimiter escapes false c.bytes
  if c.length ≤ before then none
  else
    let inner := c.advance (before + 1)
    let close := inner.advance (unquotedLength delimiter escapes false inner.bytes)
    some (close.advance 1, inner.textTo close)

/-- The pieces between the separators. -/
def split (separator : UInt8) (c : Cursor) : List Bytes :=
  if c.isEmpty then []
  else
    let cut := c.takeUntil (· == separator)
    cut.2 :: split separator (cut.1.advance 1)
termination_by c.length
decreasing_by
  have hne : ¬ c.isEmpty = true := by assumption
  have hstart : c.start ≤ (c.takeUntil (· == separator)).1.start := c.start_le_start_advance _
  have hstop : (c.takeUntil (· == separator)).1.stop = c.stop := rfl
  have hle := c.start_le_stop
  show ((c.takeUntil (· == separator)).1.advance 1).length < c.length
  rw [length_advance]
  simp only [isEmpty, beq_iff_eq] at hne
  simp only [length]
  omega

section Numbers

/-- Past what a scan of the bytes reads, with its value. -/
def read? {α : Type} (scan : Bytes → Option (Reading α)) : Option (Cursor × α) :=
  (scan c.bytes).map fun r => (c.advance r.length, r.value)

def int16? : Option (Cursor × Int) := c.read? IntegerType.int16.scanSigned

def int32? : Option (Cursor × Int) := c.read? IntegerType.int32.scanSigned

def uint32? : Option (Cursor × Int) := c.read? (IntegerType.uint32.scanUnsigned 10)

def hexadecimal? : Option (Cursor × Int) := c.read? scanHexadecimal

def float? : Option (Cursor × Binary64) := c.read? scanFloat

end Numbers

end Cursor

end SExpression
