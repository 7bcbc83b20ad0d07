import SExpression.Number.Numeral
import SExpression.Number.Decimal

/-! # Floating-point literals

A literal is a signed numeral, a point and a run of fraction digits, possibly empty, and may end in
`e` or `E` and a second signed numeral, its exponent.  The point and a digit before it are
required, and an `e` that no numeral follows leaves no literal at all.  Both numerals may have
whitespace in front, which is part of the length and not of the value.

The value is the floating-point number nearest to the decimal that the literal denotes.  The
exponent stops growing at the digit that takes it to 65536 or beyond. -/
set_option autoImplicit false
namespace SExpression

structure FloatLiteral where
  whole : Numeral
  fraction : List Nat
  exponent : Option Numeral
  deriving DecidableEq, Repr

namespace FloatLiteral

/-- The exponent after the fraction, or none of length zero; fails at an `e` without a numeral. -/
def scanExponent : Bytes → Option (Reading (Option Numeral))
  | [] => some ⟨none, 0⟩
  | b :: rest =>
    if b = byte 'e' ∨ b = byte 'E' then
      (Numeral.scan rest).map fun r => ⟨some r.value, 1 + r.length⟩
    else some ⟨none, 0⟩

def scanFraction : Bytes → Option (List Nat)
  | [] => none
  | b :: rest => if b = byte '.' then some (digitRun 10 rest) else none

def scan (bs : Bytes) : Option (Reading FloatLiteral) := do
  let whole ← Numeral.scan bs
  let fraction ← scanFraction (bs.drop whole.length)
  let mantissaLength := whole.length + 1 + fraction.length
  let exponent ← scanExponent (bs.drop mantissaLength)
  return ⟨⟨whole.value, fraction, exponent.value⟩, mantissaLength + exponent.length⟩

/-- The size of an exponent, which no longer grows once it has reached 65536. -/
def exponentSize (digits : List Nat) : Nat :=
  digits.foldl (fun e d => if e < 65536 then 10 * e + d else e) 0

def exponentValue : Option Numeral → Int
  | none => 0
  | some n => if n.negative then -(exponentSize n.digits : Int) else exponentSize n.digits

/-- The decimal that the literal denotes, apart from its sign. -/
def decimal (l : FloatLiteral) : Decimal where
  coefficient := natOfDigits 10 (l.whole.digits ++ l.fraction)
  exponent := exponentValue l.exponent - l.fraction.length

def value (l : FloatLiteral) : Binary64 where
  negative := l.whole.negative
  magnitude := l.decimal.nearest
  magnitude_lt := Binary64.nearest_lt _ _

end FloatLiteral

def scanFloat (bs : Bytes) : Option (Reading Binary64) :=
  (FloatLiteral.scan bs).map (Reading.map FloatLiteral.value)

end SExpression
