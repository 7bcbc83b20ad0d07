import SExpression.Number.FloatLiteral

/-! # Floating-point numbers from texts

The conversion of a whole text.  A number is a sign or none, digits that may have a point before,
among or after them, and an exponent or none, which is `e` or `E`, a sign or none, and digits.  The
words `inf`, `infinity` and `nan`, in letters of either case, are numbers as well.  Whitespace is not
allowed anywhere, so a scanned literal has to lose its own before it is converted. -/
set_option autoImplicit false
namespace SExpression.Binary64

def notANumber : Nat := 0x7FF8000000000000

theorem infinity_lt : infinity < Nat.pow 2 63 := by decide

theorem notANumber_lt : notANumber < Nat.pow 2 63 := by decide

def lowercase (b : UInt8) : UInt8 := if byte 'A' ≤ b && b ≤ byte 'Z' then b + 32 else b

def ofWord? (negative : Bool) (bs : Bytes) : Option Binary64 :=
  let word := bs.map lowercase
  if word = Bytes.ofString "inf" ∨ word = Bytes.ofString "infinity" then
    some ⟨negative, infinity, infinity_lt⟩
  else if word = Bytes.ofString "nan" then some ⟨negative, notANumber, notANumber_lt⟩
  else none

/-- A sign or none and digits, up to the end. -/
def exponent? (bs : Bytes) : Option Numeral :=
  let (negative, signLength) := Numeral.sign bs
  let digits := digitRun 10 (bs.drop signLength)
  if digits = [] ∨ bs.length ≠ signLength + digits.length then none else some ⟨negative, digits⟩

/-- What may follow the digits of a number. -/
def ending? : Bytes → Option (Option Numeral)
  | [] => some none
  | b :: rest => if b = byte 'e' ∨ b = byte 'E' then (exponent? rest).map some else none

def ofDigits? (negative : Bool) (bs : Bytes) : Option Binary64 :=
  let whole := digitRun 10 bs
  let past := bs.drop whole.length
  let (fraction, length) :=
    match FloatLiteral.scanFraction past with
    | some ds => (ds, 1 + ds.length)
    | none => ([], 0)
  if whole = [] ∧ fraction = [] then none
  else (ending? (past.drop length)).map fun e => FloatLiteral.value ⟨⟨negative, whole⟩, fraction, e⟩

/-- The number that a text denotes, if it is the text of one. -/
def ofText? (text : Bytes) : Option Binary64 :=
  let (negative, signLength) := Numeral.sign text
  let bs := text.drop signLength
  (ofWord? negative bs).or (ofDigits? negative bs)

end SExpression.Binary64
