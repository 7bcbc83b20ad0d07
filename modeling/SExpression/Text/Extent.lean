import SExpression.Text.Byte

/-! # How far a stretch of text reaches

Each function measures the stretch of some kind that stands at the front of the bytes: the number
of bytes it takes.  A stretch that is not closed before the bytes end takes all of them.

A line ends in a line feed, a carriage return, or one of each in either order, which count as one
ending.  Comments are those of C: `//` to the end of the line with its ending, and `/*` to the next
`*/`. -/
set_option autoImplicit false
namespace SExpression

def blankLength (bs : Bytes) : Nat := (bs.takeWhile isWhitespace).length

/-- The first line with its ending. -/
def lineLength : Bytes → Nat
  | [] => 0
  | b :: rest =>
    if isLineEnd b then
      match rest with
      | [] => 1
      | b' :: _ => if isLineEnd b' && b' != b then 2 else 1
    else 1 + lineLength rest

/-- What precedes the first `*/`, and that mark. -/
def blockLength : Bytes → Nat
  | [] => 0
  | [_] => 1
  | b :: b' :: rest => if b = byte '*' ∧ b' = byte '/' then 2 else 1 + blockLength (b' :: rest)

/-- The comment at the front, of length zero if there is none. -/
def commentLength : Bytes → Nat
  | b :: b' :: rest =>
    if b = byte '/' ∧ b' = byte '/' then lineLength (b :: b' :: rest)
    else if b = byte '/' ∧ b' = byte '*' then 2 + blockLength rest
    else 0
  | _ => 0

/-- What precedes the first delimiter that is not hidden.  With `escapes` a backslash that is not
hidden itself hides the byte after it; `hidden` says so of the first byte. -/
def unquotedLength (delimiter : UInt8) (escapes : Bool) (hidden : Bool) : Bytes → Nat
  | [] => 0
  | b :: rest =>
    if hidden then 1 + unquotedLength delimiter escapes false rest
    else if escapes && b == byte '\\' then 1 + unquotedLength delimiter escapes true rest
    else if b = delimiter then 0
    else 1 + unquotedLength delimiter escapes false rest

def lastIndex? (p : UInt8 → Bool) : Bytes → Option Nat
  | [] => none
  | b :: rest =>
    match lastIndex? p rest with
    | some i => some (i + 1)
    | none => if p b then some 0 else none

section Bounds

theorem lineLength_pos (b : UInt8) (rest : Bytes) : 0 < lineLength (b :: rest) := by
  unfold lineLength
  split
  · split
    · decide
    · split <;> decide
  · omega

theorem unquotedLength_le (delimiter : UInt8) (escapes hidden : Bool) (bs : Bytes) :
    unquotedLength delimiter escapes hidden bs ≤ bs.length := by
  induction bs generalizing hidden with
  | nil => simp [unquotedLength]
  | cons b rest ih =>
    simp only [unquotedLength, List.length_cons]
    have hfalse := ih false
    have htrue := ih true
    repeat' split
    all_goals omega

end Bounds

end SExpression
