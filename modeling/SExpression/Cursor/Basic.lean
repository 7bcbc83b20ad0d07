import SExpression.Text.Utf8

/-! # Cursors

A cursor is a range of offsets in a buffer; the range never leaves the buffer.  Moving a cursor
gives a new one over the same buffer, and counts and offsets beyond the range stop at its ends.
`bytes` is what the range holds; `text` is the same, but empty where the range begins or ends
inside a character. -/
set_option autoImplicit false
namespace SExpression

structure Cursor where
  buffer : Bytes
  start : Nat
  stop : Nat
  start_le_stop : start ≤ stop
  stop_le_length : stop ≤ buffer.length
  deriving DecidableEq, Repr

namespace Cursor

def ofBuffer (buffer : Bytes) : Cursor := ⟨buffer, 0, buffer.length, Nat.zero_le _, Nat.le_refl _⟩

/-- The cursor from offset `i` to offset `j`, both moved back into the buffer as far as needed. -/
def ofRange (buffer : Bytes) (i j : Nat) : Cursor where
  buffer := buffer
  start := min i (min j buffer.length)
  stop := min j buffer.length
  start_le_stop := Nat.min_le_right _ _
  stop_le_length := Nat.min_le_right _ _

section View
variable (c : Cursor)

def length : Nat := c.stop - c.start

def isEmpty : Bool := c.start == c.stop

def bytes : Bytes := (c.buffer.drop c.start).take c.length

def text : Bytes := c.buffer.slice c.start c.stop

def peek? : Option UInt8 := c.bytes.head?

/-- The text from this cursor to where another one begins, empty if that lies further back. -/
def textTo (past : Cursor) : Bytes := c.buffer.slice c.start (max past.start c.start)

theorem length_bytes : c.bytes.length = c.length := by
  have := c.stop_le_length
  simp only [bytes, length, List.length_take, List.length_drop]
  omega

theorem isEmpty_iff : c.isEmpty = true ↔ c.bytes = [] := by
  have hle := c.start_le_stop
  rw [← List.length_eq_zero_iff, c.length_bytes, isEmpty, beq_iff_eq, length]
  omega

theorem bytes_ofBuffer (buffer : Bytes) : (ofBuffer buffer).bytes = buffer := by
  simp [bytes, ofBuffer, length]

end View

section Motion
variable (c : Cursor)

/-- Past the next `n` bytes, or at the end if there are fewer. -/
def advance (n : Nat) : Cursor where
  buffer := c.buffer
  start := min (c.start + n) c.stop
  stop := c.stop
  start_le_stop := Nat.min_le_right _ _
  stop_le_length := c.stop_le_length

def atEnd : Cursor := { c with start := c.stop, start_le_stop := Nat.le_refl _ }

/-- The first `n` bytes of the range, or all of it if there are fewer. -/
def take (n : Nat) : Cursor where
  buffer := c.buffer
  start := c.start
  stop := c.start + min n c.length
  start_le_stop := Nat.le_add_right _ _
  stop_le_length := by
    have := c.start_le_stop
    have := c.stop_le_length
    simp only [length]
    omega

@[simp] theorem buffer_advance (n : Nat) : (c.advance n).buffer = c.buffer := rfl

@[simp] theorem stop_advance (n : Nat) : (c.advance n).stop = c.stop := rfl

theorem start_le_start_advance (n : Nat) : c.start ≤ (c.advance n).start := by
  have := c.start_le_stop
  simp only [advance]
  omega

theorem length_advance (n : Nat) : (c.advance n).length = c.length - n := by
  simp only [length, advance]
  omega

@[simp] theorem bytes_advance (n : Nat) : (c.advance n).bytes = c.bytes.drop n := by
  have := c.start_le_stop
  rw [bytes, bytes, length_advance, List.drop_take, List.drop_drop]
  simp only [length, advance]
  by_cases h : c.start + n ≤ c.stop
  · rw [Nat.min_eq_left h]
  · rw [show c.stop - c.start - n = 0 by omega]
    simp

@[simp] theorem bytes_take (n : Nat) : (c.take n).bytes = c.bytes.take n := by
  simp only [bytes, length, take, List.take_take]
  congr 1
  omega

end Motion

end Cursor

end SExpression
