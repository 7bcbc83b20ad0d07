import SExpression.Parse

/-! # Data in columns

A columnar store keeps one element per token, and the values in tables by their type: an element
is the kind of its token and an index into the table of that kind.  Atoms and strings share the
table of texts, and brackets have index zero.  The store also counts the open lists, starting from
a balance of the user's choice.

While it is built, a store holds its texts as bytes like all of this library.  `pack` gives the
form in which a store is kept: the same columns, with each text in one block of memory. -/
set_option autoImplicit false
namespace SExpression

structure Element where
  kind : Kind
  index : Nat
  deriving DecidableEq, Repr

/-- A type of texts in storage. -/
class Text (τ : Type) where
  bytes : τ → Bytes

instance : Text Bytes := ⟨id⟩

instance : Text ByteArray := ⟨fun a => a.data.toList⟩

structure Columns (τ : Type) where
  elements : Array Element
  integers : Array Int
  floats : Array Binary64
  texts : Array τ
  balance : Int
  deriving DecidableEq, Repr

namespace Columns

def empty {τ : Type} (balance : Int) : Columns τ := ⟨#[], #[], #[], #[], balance⟩

section Building

def put (s : Columns Bytes) : Token → Columns Bytes
  | .opening =>
    { s with elements := s.elements.push ⟨.opening, 0⟩, balance := s.balance + 1 }
  | .closing =>
    { s with elements := s.elements.push ⟨.closing, 0⟩, balance := s.balance - 1 }
  | .atom text =>
    { s with elements := s.elements.push ⟨.atom, s.texts.size⟩, texts := s.texts.push text }
  | .string text =>
    { s with elements := s.elements.push ⟨.string, s.texts.size⟩, texts := s.texts.push text }
  | .integer value =>
    { s with
      elements := s.elements.push ⟨.integer, s.integers.size⟩
      integers := s.integers.push value }
  | .float value =>
    { s with
      elements := s.elements.push ⟨.float, s.floats.size⟩
      floats := s.floats.push value }

instance : Sink (Columns Bytes) := ⟨put⟩

theorem balance_put (s : Columns Bytes) (t : Token) : (s.put t).balance = s.balance + t.step := by
  cases t <;> simp [put, Token.step, Int.sub_eq_add_neg]

/-- A store counts the open lists as the parser does. -/
theorem balance_feed (s : Columns Bytes) (ts : List Token) :
    (feed s ts).balance = s.balance + SExpression.balance ts := by
  induction ts generalizing s with
  | nil => simp
  | cons t ts ih =>
    rw [feed_cons, ih]
    simp [Sink.put, balance_put, Int.add_assoc]

/-- Parses into a store and goes on from its balance. -/
def parse (settings : Settings) (c : Cursor) (s : Columns Bytes) : Columns Bytes × Parsed :=
  parseInto settings c s.balance s

def ofText (settings : Settings) (text : Bytes) : Except PositionedError (Columns Bytes) :=
  let r := parseInto settings (.ofBuffer text) 0 (empty 0 : Columns Bytes)
  r.2.result.map fun _ => r.1

def pack (s : Columns Bytes) : Columns ByteArray :=
  { s with texts := s.texts.map Bytes.toByteArray }

end Building

section Looking
variable {τ : Type} [Text τ] (s : Columns τ)

def size : Nat := s.elements.size

/-- The token that an element stands for; none if its index lies outside the table. -/
def token? (e : Element) : Option Token :=
  match e.kind with
  | .atom => s.texts[e.index]?.map fun x => .atom (Text.bytes x)
  | .opening => some .opening
  | .closing => some .closing
  | .integer => s.integers[e.index]?.map .integer
  | .float => s.floats[e.index]?.map .float
  | .string => s.texts[e.index]?.map fun x => .string (Text.bytes x)

def tokens : List Token := s.elements.toList.filterMap s.token?

/-- Whether two stores hold equal columns, where floats are equal by value. -/
def equal [BEq τ] (s t : Columns τ) : Bool :=
  s.elements == t.elements && s.integers == t.integers
    && (s.floats.size == t.floats.size && (s.floats.zip t.floats).all fun p => p.1.equal p.2)
    && s.texts == t.texts && s.balance == t.balance

end Looking

end Columns

end SExpression
