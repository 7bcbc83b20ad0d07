/-! # Floating-point numbers of 64 bits

A number is its sign and its magnitude, the lower 63 bits of the interchange format.  Read as a
natural number the magnitude enumerates the non-negative numbers in increasing order: `units`
gives the value of each in multiples of the smallest positive one, `2 ^ -1074`, up to
`infinity`, and the magnitudes above `infinity` are not numbers.

`nearest p q` is the magnitude whose value lies nearest to the fraction `p / q`.  Of two equally
near it is the even one, and the value of `infinity` for this purpose is the one its magnitude
would have if the format went on, `2 ^ 1024`, which is the rule for overflow. -/
set_option autoImplicit false
namespace SExpression

structure Binary64 where
  negative : Bool
  magnitude : Nat
  magnitude_lt : magnitude < Nat.pow 2 63
  deriving DecidableEq, Repr

namespace Binary64

section Format

def infinity : Nat := 0x7FF0000000000000

def ofBits (bits : UInt64) : Binary64 where
  negative := Nat.pow 2 63 ≤ bits.toNat
  magnitude := bits.toNat % Nat.pow 2 63
  magnitude_lt := Nat.mod_lt _ (by decide)

def toBits (x : Binary64) : UInt64 :=
  UInt64.ofNat (if x.negative then Nat.pow 2 63 + x.magnitude else x.magnitude)

def isNaN (x : Binary64) : Bool := infinity < x.magnitude

def isInfinite (x : Binary64) : Bool := x.magnitude == infinity

def isFinite (x : Binary64) : Bool := x.magnitude < infinity

/-- Equality of values: the two zeros are equal, and what is not a number equals nothing. -/
def equal (x y : Binary64) : Bool :=
  !x.isNaN && !y.isNaN
    && (x.magnitude == y.magnitude && (x.negative == y.negative || x.magnitude == 0))

end Format

section Rounding

/-- The power of two in the value of a magnitude. -/
def shift (k : Nat) : Nat := k / Nat.pow 2 52 - 1

/-- The number that is multiplied by the power of two, less than `2 ^ 53`. -/
def significand (k : Nat) : Nat := k - shift k * Nat.pow 2 52

/-- The value of a magnitude in multiples of `2 ^ -1074`. -/
def units (k : Nat) : Nat := significand k * Nat.pow 2 (shift k)

/-- The greatest magnitude whose value is at most `n` multiples of `2 ^ -1074`. -/
def floorMagnitude (n : Nat) : Nat :=
  let s := n.log2 - 52
  s * Nat.pow 2 52 + n / Nat.pow 2 s

def nearest (p q : Nat) : Nat :=
  let scaled := p * Nat.pow 2 1074
  let low := floorMagnitude (scaled / q)
  let middle := q * (units low + units (low + 1))
  let chosen :=
    if 2 * scaled < middle then low
    else if middle < 2 * scaled then low + 1
    else low + low % 2
  min chosen infinity

theorem nearest_lt (p q : Nat) : nearest p q < Nat.pow 2 63 :=
  Nat.lt_of_le_of_lt (Nat.min_le_right _ _) (by decide)

end Rounding

end Binary64

end SExpression
