import SExpression.Text.Extent

/-! # Integer literals

A numeral is a run of digits, with a sign or without one.  `digitRun` is the longest run at the
front of the bytes, as digit values; `natOfDigits` is the number such a run denotes and
`wordOfDigits` the same number in a word of fixed width.  Words wrap around, so a literal of any
length has a value: a scan fails only where no digit stands.

Every scan skips whitespace first and counts it, together with the sign and the digits, in the
length of its reading. -/
set_option autoImplicit false
namespace SExpression

/-- What a scan has read, and the number of bytes it took. -/
structure Reading (α : Type) where
  value : α
  length : Nat
  deriving DecidableEq, Repr

def Reading.map {α β : Type} (f : α → β) (r : Reading α) : Reading β := ⟨f r.value, r.length⟩

section Digits

/-- The value of a byte as a digit; beyond nine the letters of either case count on from ten. -/
def digitValue? (radix : Nat) (b : UInt8) : Option Nat :=
  let v :=
    if isDigit b then b.toNat - (byte '0').toNat
    else if byte 'a' ≤ b && b ≤ byte 'z' then b.toNat - (byte 'a').toNat + 10
    else if byte 'A' ≤ b && b ≤ byte 'Z' then b.toNat - (byte 'A').toNat + 10
    else radix
  if v < radix then some v else none

/-- The longest run of digits at the front. -/
def digitRun (radix : Nat) : Bytes → List Nat
  | [] => []
  | b :: rest =>
    match digitValue? radix b with
    | some d => d :: digitRun radix rest
    | none => []

def natOfDigits (radix : Nat) (ds : List Nat) : Nat := ds.foldl (fun n d => n * radix + d) 0

def wordOfDigits (w radix : Nat) (ds : List Nat) : BitVec w :=
  ds.foldl (fun n d => n * BitVec.ofNat w radix + BitVec.ofNat w d) 0

/-- Wrapping at every digit or once at the end makes no difference. -/
theorem wordOfDigits_eq (w radix : Nat) (ds : List Nat) :
    wordOfDigits w radix ds = BitVec.ofNat w (natOfDigits radix ds) := by
  suffices h : ∀ (ds : List Nat) (n : Nat),
      ds.foldl (fun n d => n * BitVec.ofNat w radix + BitVec.ofNat w d) (BitVec.ofNat w n)
        = BitVec.ofNat w (ds.foldl (fun n d => n * radix + d) n) from h ds 0
  intro ds
  induction ds with
  | nil => intro n; rfl
  | cons d ds ih =>
    intro n
    simp only [List.foldl_cons]
    rw [← ih, BitVec.ofNat_add, BitVec.ofNat_mul]

end Digits

structure Numeral where
  negative : Bool
  digits : List Nat
  deriving DecidableEq, Repr

namespace Numeral

/-- The sign at the front: whether it is a minus, and the number of bytes it takes. -/
def sign : Bytes → Bool × Nat
  | [] => (false, 0)
  | b :: _ => if b = byte '-' then (true, 1) else if b = byte '+' then (false, 1) else (false, 0)

/-- Whitespace, a sign or none, and at least one decimal digit. -/
def scan (bs : Bytes) : Option (Reading Numeral) :=
  let blank := blankLength bs
  let (negative, signLength) := sign (bs.drop blank)
  let digits := digitRun 10 (bs.drop (blank + signLength))
  if digits = [] then none
  else some ⟨⟨negative, digits⟩, blank + signLength + digits.length⟩

/-- The numeral in a word of `w` bits; the sign negates the word. -/
def toWord (w : Nat) (n : Numeral) : BitVec w :=
  if n.negative then -wordOfDigits w 10 n.digits else wordOfDigits w 10 n.digits

end Numeral

structure IntegerType where
  signed : Bool
  width : Nat
  deriving DecidableEq, Repr

namespace IntegerType

def int16 : IntegerType := ⟨true, 16⟩
def int32 : IntegerType := ⟨true, 32⟩
def uint32 : IntegerType := ⟨false, 32⟩

/-- The number that a word stands for: two's complement in a signed type. -/
def ofWord (t : IntegerType) (n : BitVec t.width) : Int := if t.signed then n.toInt else n.toNat

/-- A numeral with a sign or without one, wrapped to the type. -/
def scanSigned (t : IntegerType) (bs : Bytes) : Option (Reading Int) :=
  (Numeral.scan bs).map (Reading.map fun n => t.ofWord (n.toWord t.width))

/-- A numeral without a sign in the given radix, wrapped to the type. -/
def scanUnsigned (t : IntegerType) (radix : Nat) (bs : Bytes) : Option (Reading Int) :=
  let blank := blankLength bs
  let digits := digitRun radix (bs.drop blank)
  if digits = [] then none
  else some ⟨t.ofWord (wordOfDigits t.width radix digits), blank + digits.length⟩

end IntegerType

/-- A hexadecimal numeral of 32 bits, without a sign and without a mark in front. -/
def scanHexadecimal (bs : Bytes) : Option (Reading Int) := IntegerType.uint32.scanUnsigned 16 bs

end SExpression
