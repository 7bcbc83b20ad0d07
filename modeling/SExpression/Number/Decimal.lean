import SExpression.Text.Byte
import SExpression.Number.Binary64

/-! # Decimal fractions

A decimal is a natural coefficient times a power of ten.  `nearest` rounds it to a floating-point
magnitude and `text` writes it out in positional notation: at least one digit before the point, no
exponent however long the digits get, and after the point the digits of the fraction without
trailing zeros, but at least one. -/
set_option autoImplicit false
namespace SExpression

structure Decimal where
  coefficient : Nat
  exponent : Int
  deriving DecidableEq, Repr

namespace Decimal

/-- The decimal as a fraction: numerator and denominator. -/
def ratio (d : Decimal) : Nat × Nat :=
  match d.exponent with
  | .ofNat e => (d.coefficient * Nat.pow 10 e, 1)
  | .negSucc e => (d.coefficient, Nat.pow 10 (e + 1))

def nearest (d : Decimal) : Nat := Binary64.nearest d.ratio.1 d.ratio.2

def digits (n : Nat) : Bytes := (Nat.toDigits 10 n).map byte

/-- The fraction digits of `n / 10 ^ places` for `n < 10 ^ places`, without trailing zeros. -/
def fractionDigits (places n : Nat) : Bytes :=
  let ds := digits n
  let padded := List.replicate (places - ds.length) (byte '0') ++ ds
  (padded.reverse.dropWhile (· == byte '0')).reverse

def text (d : Decimal) : Bytes :=
  let (p, q) := d.ratio
  let fraction := fractionDigits (-d.exponent).toNat (p % q)
  digits (p / q) ++ byte '.' :: (if fraction = [] then [byte '0'] else fraction)

end Decimal

end SExpression
