import Mathlib.Algebra.Group.Nat.Defs
import SExpression.Text.Position

/-! # Positions in words

A position is kept in two words of 32 bits, in which counting wraps.  Every step is towards the next
column or the next line, so the two together never exceed the offset, and in a buffer shorter than 2^32
bytes the words hold the position itself (`toPosition_ofOffset`). -/
set_option autoImplicit false
namespace SExpression

/-- A byte moves a position on by one step at most. -/
theorem Position.after_le (p : Position) (b : UInt8) :
    (p.after b).line + (p.after b).column ≤ p.line + p.column + 1 := by
  unfold after
  split
  · exact Nat.succ_le_succ (Nat.le_add_right _ _)
  · exact Nat.le_refl _

structure WordPosition where
  line : UInt32
  column : UInt32
  deriving DecidableEq, Repr

namespace WordPosition

def after (p : WordPosition) (b : UInt8) : WordPosition :=
  if b = byte '\n' then ⟨p.line + 1, 0⟩ else ⟨p.line, p.column + 1⟩

/-- The position of an offset, moved back to the end of the buffer if it lies further. -/
def ofOffset (buffer : Bytes) (offset : Nat) : WordPosition :=
  (buffer.take (min offset buffer.length)).foldl after ⟨0, 0⟩

def toPosition (p : WordPosition) : Position := ⟨p.line.toNat, p.column.toNat⟩

theorem toNat_succ {n : UInt32} (h : n.toNat + 1 < 2 ^ 32) : (n + 1).toNat = n.toNat + 1 := by
  rw [UInt32.toNat_add]
  exact Nat.mod_eq_of_lt h

theorem toPosition_after (p : WordPosition) (b : UInt8)
    (h : p.toPosition.line + p.toPosition.column + 1 < 2 ^ 32) :
    (p.after b).toPosition = p.toPosition.after b := by
  simp only [toPosition] at h
  have hline := toNat_succ (n := p.line) (by omega)
  have hcolumn := toNat_succ (n := p.column) (by omega)
  by_cases hb : b = byte '\n'
  · simp [after, Position.after, hb, toPosition, hline]
  · simp [after, Position.after, hb, toPosition, hcolumn]

theorem toPosition_foldl (bs : Bytes) (p : WordPosition)
    (h : p.toPosition.line + p.toPosition.column + bs.length < 2 ^ 32) :
    (bs.foldl after p).toPosition = bs.foldl Position.after p.toPosition := by
  induction bs generalizing p with
  | nil => rfl
  | cons b bs ih =>
      rw [List.length_cons] at h
      have hstep := p.toPosition_after b (by omega)
      have hle := p.toPosition.after_le b
      rw [List.foldl_cons, List.foldl_cons, ih, hstep]
      rw [hstep]
      omega

/-- The words hold the position. -/
theorem toPosition_ofOffset {buffer : Bytes} (hshort : buffer.length < 2 ^ 32) (i : Nat) :
    (ofOffset buffer i).toPosition = Position.ofOffset buffer i := by
  have hsame : buffer.take (min i buffer.length) = buffer.take i := List.take_eq_take_min.symm
  have hlength : (buffer.take i).length ≤ buffer.length := List.length_take_le' _ _
  rw [ofOffset, hsame, toPosition_foldl _ _ (by simp only [toPosition, UInt32.toNat_zero]; omega)]
  rfl

end WordPosition

end SExpression
