import SExpression.Number.Decimal

/-! # The shortest decimal that reads back

A finite floating-point magnitude has an exact decimal, and cutting that off after its first `n`
digits gives the last `n`-digit decimal not above it; the next one is a unit higher.  The shortest
decimal of a magnitude is found among these two for `n` from 1 on: the first that rounds to the
magnitude, of two the nearer one, and of two equally near the upper one.  Seventeen digits are
always enough; were they not, the exact decimal would still read back. -/
set_option autoImplicit false
namespace SExpression.Decimal

def exact (k : Nat) : Decimal :=
  let places := 1074 - Binary64.shift k
  ⟨Binary64.significand k * Nat.pow 2 (Binary64.shift k - 1074) * Nat.pow 5 places, -places⟩

/-- The nearer of the two decimals around `d` that are `cut` digits shorter and round to
magnitude `k`, if there is one. -/
def shortened? (k : Nat) (d : Decimal) (cut : Nat) : Option Decimal :=
  let unit := Nat.pow 10 cut
  let lower : Decimal := ⟨d.coefficient / unit, d.exponent + cut⟩
  let upper : Decimal := ⟨d.coefficient / unit + 1, d.exponent + cut⟩
  let lowerFits := lower.nearest == k
  let upperFits := upper.nearest == k
  if upperFits && (!lowerFits || unit ≤ 2 * (d.coefficient % unit)) then some upper
  else if lowerFits then some lower
  else none

def shortest (k : Nat) : Decimal :=
  let d := exact k
  let count := (Nat.toDigits 10 d.coefficient).length
  ((List.range 17).findSome? fun i => shortened? k d (count - (i + 1))).getD d

end SExpression.Decimal

namespace SExpression.Binary64

/-- The text of a number: the shortest decimal that reads back, with the sign of a negative number,
and `inf` and `NaN` for what has no digits. -/
def text (x : Binary64) : Bytes :=
  if x.isNaN then Bytes.ofString "NaN"
  else
    (if x.negative then [byte '-'] else [])
      ++ if x.isInfinite then Bytes.ofString "inf" else (Decimal.shortest x.magnitude).text

end SExpression.Binary64
